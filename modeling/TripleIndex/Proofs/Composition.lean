import TripleIndex.Proofs.Confinement
import TripleIndex.Proofs.Ingestion
import TripleIndex.Proofs.Order

/-!
# Ingesting files

A file is ingested as a whole or not at all.  All of its records are read before the first one is
added, so a file with a malformed record leaves everything as it is.  The records of a file that is
read are appended to the index file in their order, and nothing else happens but that the
directories on the way to the index file are created (`FileTree.ChangedAt`).

What a run leaves is told by what it appends.  A run that follows begins with what the first one has
left, and whether the index has been loaded anew in between plays no part.  So two files that are
ingested one after the other leave the very tree that one file leaves which holds what is in both
(`Command.run_ingest_files`).

The index file has to be as the program leaves it, or else it has to be missing and there has to be
room for it.  Scores are as in any other log: what is written has to be readable again when the
next run loads it.
-/

namespace TripleIndex

open Text

/-! ## Logs are no files of prefixes -/

/-- A log of written records is not read as a file of prefixes. -/
theorem Namespaces.ofFile_flatMap_octets_ne (file : String) (es : List Entry) (ns : Namespaces) :
    ofFile file (es.flatMap Log.octets) ≠ .ok ns := by
  have hdecode : ∀ ns, Json.decode reader (es.flatMap Log.line) ≠ .ok ns := by
    intro ns hns
    cases es with
    | nil => cases hns
    | cons e es =>
      choose spelled hspelled _ using Json.exists_spells_float
      rw [List.flatMap_cons, Log.line, List.append_assoc] at hns
      -- The identifier of the first record is no text.
      have hread := Json.reader_of_decode_append
        (Entry.closes_treeWith (Identifier.closes_scoredTree hspelled e.identifier)) hns
      cases hread
  rw [Log.flatMap_octets, ofFile, Utf8.decode_encode]
  dsimp only
  cases h : Json.decode reader (es.flatMap Log.line) with
  | error f => simp
  | ok ns' => exact (hdecode ns' h).elim

namespace Log

/-- Octets that are text in which every line that is not blank is a record. -/
def HasRecords {α : Type} (reader : Json.Reader α) (octets : List UInt8) : Prop :=
  ∃ cs, octets = Utf8.encode cs ∧
    ∀ l ∈ lines cs, allBlank l = false → ∃ a, Json.decode reader l = .ok a

theorem exists_read_iff {α : Type} {reader : Json.Reader α} {octets : List UInt8} :
    (∃ as, read reader octets = .ok as) ↔ HasRecords reader octets := by
  simp only [HasRecords, read_eq_ok_iff_forall₂, ← exists_records_iff]
  constructor
  · rintro ⟨as, cs, hcs, has⟩
    exact ⟨cs, hcs, as, has⟩
  · rintro ⟨cs, hcs, as, has⟩
    exact ⟨as, cs, hcs, has⟩

end Log

namespace Command

/-- A file of records, as it is ingested. -/
structure Supply where
  /-- What asks for it to be ingested. -/
  words : List String
  file : String
  octets : List UInt8
  records : List Submission

namespace Supply

/-- A file that holds what is in two others. -/
def join (p q : Supply) (words : List String) (file : String) : Supply :=
  ⟨words, file, p.octets ++ q.octets, p.records ++ q.records⟩

/-- Ingesting the file succeeds, and leaves some tree. -/
def Leaves (p : Supply) (input : List UInt8) (files t : FileTree) : Prop :=
  run p.words input files = (⟨.success, ingestedLine p.records.length p.file⟩, t)

end Supply

/-- A run fails, prints nothing and leaves everything as it is. -/
structure Refuses (words : List String) (input : List UInt8) (files : FileTree) : Prop where
  code : (run words input files).1.exit.code = 1
  output : (run words input files).1.output = []
  kept : (run words input files).2 = files

namespace Invocation

/-- The path of the index file. -/
def indexPath (v : Invocation) : Path :=
  (Path.ofString v.storagePath).join (Path.ofString v.indexKey)

/-- Words ask for a file to be ingested, with the options of an invocation, and it has some
octets. -/
structure Ingests (v : Invocation) (files : FileTree) (words : List String) (file : String)
    (octets : List UInt8) : Prop where
  parse : Invocation.parse words = .ok { v with action := .ingest file }
  read : files.read (Path.ofString file) = .ok octets

/-- An index can be opened, and the index file has the records of some entries, which can be read
again; or it is missing, there are no entries, and there is room for it. -/
structure Ready (v : Invocation) (files : FileTree) (es : List Entry) : Prop where
  index : (v.index files).isOk = true
  stores : (v.access files).storage.Stores v.indexKey (es.flatMap Log.octets)
  legible : ∀ e ∈ es, ∃ f, e.reread = .ok f

/-- A file is to be ingested with the options of an invocation, and it has these records. -/
structure Supplies (v : Invocation) (files : FileTree) (p : Supply) : Prop where
  ingests : v.Ingests files p.words p.file p.octets
  read : Log.read Submission.reader p.octets = .ok p.records

/-- Two files are to be ingested one after the other.  The first ends where a record may begin, and
what is filed of it can be read again; and the second is not the index file, which will have
changed. -/
structure Follows (v : Invocation) (files : FileTree) (p q : Supply) : Prop where
  first : v.Supplies files p
  next : v.Supplies files q
  closed : Log.IsClosed p.octets
  legible : ∀ u ∈ p.records, ∃ i, u.identifier.reread = .ok i
  apart : Path.place (files.start (Path.ofString q.file)) (Path.ofString q.file) ≠
    Path.place (files.start v.indexPath) v.indexPath

/-- From one tree to the other, the lines of submissions have been appended to the index file, which
had the records of some entries, and nothing else has changed but that directories on the way to it
may have been created. -/
structure Appends (v : Invocation) (files t : FileTree) (es : List Entry) (us : List Submission) :
    Prop where
  changed : FileTree.ChangedAt v.indexPath files t
  unchanged : us = [] → t = files
  log : us ≠ [] → (v.access t).storage.Keeps v.indexKey
    ((es ++ us.map Entry.ofSubmission).flatMap Log.octets)
  /-- Unless a score keeps a line from being read again, the next run finds the index file ready. -/
  ready : (∀ u ∈ us, ∃ i, u.identifier.reread = .ok i) →
    v.Ready t (es ++ us.map Entry.ofSubmission)

variable {v : Invocation} {files t u : FileTree} {es : List Entry} {us : List Submission}
  {p q : Supply} {words : List String} {file : String} {octets : List UInt8}

theorem key_of_index {y : Index} (h : v.index files = .ok y) : y.catalog.key = v.indexKey := by
  obtain ⟨ns, rfl⟩ := exists_of_index h
  rfl

theorem filesOf_access (v : Invocation) (t files : FileTree) : filesOf (v.access t) files = t := rfl

theorem access_inj (h : v.access t = v.access u) : t = u := by
  rw [← filesOf_access v t t, h, filesOf_access]

theorem reads_access (v : Invocation) (files : FileTree) : (v.access files).Reads :=
  ⟨List.not_mem_nil, List.not_mem_nil⟩

theorem access_append (v : Invocation) (files : FileTree) (octets : List UInt8) :
    ∃ t, ((v.access files).append v.indexKey octets).2 = v.access t ∧
      FileTree.ChangedAt v.indexPath files t := by
  obtain ⟨t, ht, hchanged⟩ := Directory.changedAt_update ⟨files, Path.ofString v.storagePath⟩
    .openFile v.indexKey (· ++ octets)
  exact ⟨t, congrArg (fun d : Directory ↦ Access.mk (.directory d) []) ht, hchanged⟩

theorem access_appendEach (v : Invocation) (files : FileTree) (parts : List (List UInt8)) :
    ∃ t, (v.access files).appendEach v.indexKey parts = v.access t ∧
      FileTree.ChangedAt v.indexPath files t := by
  induction parts generalizing files with
  | nil => exact ⟨files, rfl, .refl _ _⟩
  | cons octets parts ih =>
    obtain ⟨t, ht, hchanged⟩ := v.access_append files octets
    obtain ⟨u, hu, hchanged'⟩ := ih t
    refine ⟨u, ?_, hchanged.trans hchanged'⟩
    rw [Access.appendEach, List.foldl_cons, ht]
    exact hu

theorem Ready.writes (h : v.Ready files es) :
    (v.access files).Writes v.indexKey (es.flatMap Log.octets) := ⟨List.not_mem_nil, h.stores⟩

/-! ## Changes of the index file -/

theorem path_of_stores (h : (v.access files).storage.Stores v.indexKey octets) :
    Directory.path ⟨files, Path.ofString v.storagePath⟩ v.indexKey = .ok v.indexPath := by
  have hcontains : ∃ flag,
      Directory.contains ⟨files, Path.ofString v.storagePath⟩ v.indexKey = .ok flag := by
    rcases h with hkeeps | ⟨-, hlacks, -⟩
    · exact ⟨true, hkeeps.contains⟩
    · exact ⟨false, hlacks.contains⟩
  obtain ⟨flag, hflag⟩ := hcontains
  rw [Directory.contains] at hflag
  cases hp : Directory.path ⟨files, Path.ofString v.storagePath⟩ v.indexKey with
  | error f => simp [hp] at hflag
  | ok p => exact congrArg Except.ok (Directory.path_eq_ok_iff.mp hp).2.symm

/-- What stands where the index file belongs are the records, if anything does. -/
theorem Ready.eq_of_filed? (h : v.Ready files es)
    (hfiled : files.filed? v.indexPath = some octets) : octets = es.flatMap Log.octets := by
  have hfiled' : (v.access files).storage.filed? v.indexKey = some octets := by
    rw [← hfiled]
    simp only [access, Storage.filed?, Directory.filed?, path_of_stores h.stores]
  rcases h.stores with hkeeps | ⟨-, hlacks, -⟩
  · exact Option.some.inj (hfiled'.symm.trans hkeeps.filed)
  · rw [hlacks.filed] at hfiled'
    cases hfiled'

/-- A file of prefixes that can be used is not the index file. -/
theorem Ready.place_ne (h : v.Ready files es) (hread : files.read (Path.ofString file) = .ok octets)
    {ns : Namespaces} (hns : Namespaces.ofFile file octets = .ok ns) :
    Path.place (files.start (Path.ofString file)) (Path.ofString file) ≠
      Path.place (files.start v.indexPath) v.indexPath := by
  intro hplace
  obtain ⟨q, hlocate⟩ := FileTree.locate_of_read hread
  have hfiled := FileTree.filed?_of_locate_file hlocate
  rw [FileTree.filed?, hplace] at hfiled
  obtain rfl := h.eq_of_filed? hfiled
  exact Namespaces.ofFile_flatMap_octets_ne file es ns hns

/-- A change of the index file does not change which prefixes are known. -/
theorem Ready.index_eq (h : v.Ready files es) (hchanged : FileTree.ChangedAt v.indexPath files t) :
    v.index t = v.index files := by
  have hknown : knownNamespaces v.namespaces t = knownNamespaces v.namespaces files := by
    obtain ⟨y, hy⟩ := eq_ok_of_isOk h.index
    rw [Invocation.index] at hy
    cases hfile : v.namespaces with
    | none => rfl
    | some file =>
      rw [hfile, knownNamespaces] at hy
      rw [knownNamespaces, knownNamespaces]
      cases hread : files.read (Path.ofString file) with
      | error f => simp [hread] at hy
      | ok octets =>
        cases hns : Namespaces.ofFile file octets with
        | error e => simp [hread, hns, Except.map] at hy
        | ok ns => rw [hchanged.read hread (h.place_ne hread hns)]
  rw [Invocation.index, Invocation.index, hknown]

/-! ## Runs -/

/-- When not all of a file is read as records, the run does nothing. -/
theorem refuses_of_read (hfile : v.Ingests files words file octets) {e : Error}
    (hread : Log.read Submission.reader octets = .error e) (input : List UInt8) :
    Refuses words input files := by
  have hindex : ({ v with action := .ingest file } : Invocation).index files = v.index files := rfl
  have hrun : ∃ f, run words input files = (⟨.failure f, []⟩, files) := by
    rw [run, hfile.parse]
    cases hy : v.index files with
    | error f => exact ⟨f, by simp only [perform, hindex, hy]⟩
    | ok y =>
      exact ⟨e, by simp only [perform, hindex, hy, hfile.read, ingest, hread, filesOf_access]⟩
  obtain ⟨f, hrun⟩ := hrun
  exact ⟨by rw [hrun]; rfl, by rw [hrun], by rw [hrun]⟩

/-- Otherwise the run appends the lines of the records, one after the other. -/
theorem Ready.exists_leaves (h : v.Ready files es) (hp : v.Supplies files p) (input : List UInt8) :
    ∃ t, p.Leaves input files t ∧
      (v.access files).appendEach v.indexKey ((p.records.map Entry.ofSubmission).map Log.octets) =
        v.access t ∧
      FileTree.ChangedAt v.indexPath files t := by
  obtain ⟨t, ht, hchanged⟩ :=
    v.access_appendEach files ((p.records.map Entry.ofSubmission).map Log.octets)
  refine ⟨t, ?_, ht, hchanged⟩
  obtain ⟨y, hy⟩ := eq_ok_of_isOk h.index
  have hkey : y.catalog.key = v.indexKey := key_of_index hy
  have hwrites : (v.access files).Writes y.catalog.key (es.flatMap Log.octets) := hkey ▸ h.writes
  obtain ⟨fs, hfs⟩ := exists_forall₂_iff.mpr h.legible
  have hload : y.ensureLoaded (v.access files) = .ok (y.loadedWith fs) := by
    rw [Index.ensureLoaded_of_not_loaded (loaded_of_index hy),
      Index.load_eq_of_writes hwrites (v.reads_access files), Log.read_flatMap_octets_iff.mpr hfs]
    rfl
  obtain ⟨x, hx, -⟩ := Index.addMany_eq hload hwrites p.records
  rw [hkey, ht] at hx
  have hindex : ({ v with action := .ingest p.file } : Invocation).index files = .ok y := hy
  have haccess : ({ v with action := .ingest p.file } : Invocation).access files = v.access files :=
    rfl
  rw [Supply.Leaves, run, hp.ingests.parse]
  simp only [perform, hindex, hp.ingests.read, ingest, hp.read, haccess, hx, filesOf_access]

section Appended

variable (h : v.Ready files es)
  (ht : (v.access files).appendEach v.indexKey ((us.map Entry.ofSubmission).map Log.octets) =
    v.access t)
include h ht

theorem Ready.keeps_of_append (hne : us ≠ []) :
    (v.access t).storage.Keeps v.indexKey
      ((es ++ us.map Entry.ofSubmission).flatMap Log.octets) := by
  have hlines : (us.map Entry.ofSubmission).map Log.octets ≠ [] := by simpa using hne
  have hkeeps := h.writes.keeps_appendEach hlines
  rwa [ht, ← List.flatMap_def, ← List.flatMap_append] at hkeeps

/-- A run that has appended the lines of records is followed by another one, if these records can be
read again. -/
theorem Ready.of_append (hchanged : FileTree.ChangedAt v.indexPath files t)
    (hlegible : ∀ u ∈ us, ∃ i, u.identifier.reread = .ok i) :
    v.Ready t (es ++ us.map Entry.ofSubmission) where
  index := h.index_eq hchanged ▸ h.index
  stores := by
    have hstores := (h.writes.appendEach ((us.map Entry.ofSubmission).map Log.octets)).stores
    rwa [ht, ← List.flatMap_def, ← List.flatMap_append] at hstores
  legible := by
    rw [List.forall_mem_append]
    refine ⟨h.legible, fun e he ↦ ?_⟩
    obtain ⟨u, hu, rfl⟩ := List.mem_map.mp he
    exact Entry.exists_reread_iff.mpr (hlegible u hu)

end Appended

theorem Ready.appends (h : v.Ready files es) (hp : v.Supplies files p) (input : List UInt8) :
    ∃ t, p.Leaves input files t ∧ v.Appends files t es p.records := by
  obtain ⟨t, hleaves, ht, hchanged⟩ := h.exists_leaves hp input
  refine ⟨t, hleaves, hchanged, fun hnone ↦ ?_, h.keeps_of_append ht, h.of_append ht hchanged⟩
  rw [hnone] at ht
  exact (access_inj ht).symm

theorem Follows.supplies_join (h : v.Follows files p q)
    (hboth : v.Ingests files words file (p.octets ++ q.octets)) :
    v.Supplies files (p.join q words file) :=
  ⟨hboth, Log.read_append_of_isClosed h.closed h.first.read h.next.read⟩

/-- Two files are ingested one after the other like one file that holds what is in both. -/
theorem Ready.leaves_join (h : v.Ready files es) (hpq : v.Follows files p q)
    (hboth : v.Ingests files words file (p.octets ++ q.octets))
    (input input' input'' : List UInt8) :
    ∃ t u, p.Leaves input files t ∧ q.Leaves input' t u ∧
      (p.join q words file).Leaves input'' files u := by
  obtain ⟨t, hp, ht, hchanged⟩ := h.exists_leaves hpq.first input
  have hready := h.of_append ht hchanged hpq.legible
  have hnext : v.Supplies t q :=
    ⟨⟨hpq.next.ingests.parse, hchanged.read hpq.next.ingests.read hpq.apart⟩, hpq.next.read⟩
  obtain ⟨u, hq, hu, -⟩ := hready.exists_leaves hnext input'
  obtain ⟨w, hjoin, hw, -⟩ := h.exists_leaves (hpq.supplies_join hboth) input''
  rw [Supply.join, List.map_append, List.map_append, Access.appendEach_append, ht, hu] at hw
  obtain rfl := access_inj hw
  exact ⟨t, u, hp, hq, hjoin⟩

end Invocation

open Invocation

/-- A file is read as records as a whole or not at all, and behind a closed one as if it stood
alone.  If it is not read, the run fails and leaves everything as it is.  If it is, and the index
file is ready, the run succeeds and appends the lines of the records in their order; nothing else
changes but for the directories on the way to the index file.  Two files that are ingested one after
the other, the first of which is closed, leave the very tree that one file leaves which holds what
is in both, and so whatever other commands print is the same. -/
theorem run_ingest_files (v : Invocation) (files : FileTree) :
    (∀ octets, (∃ us, Log.read Submission.reader octets = .ok us) ↔
      Log.HasRecords Submission.reader octets) ∧
    (∀ octets more us vs, Log.IsClosed octets → Log.read Submission.reader octets = .ok us →
      Log.read Submission.reader more = .ok vs →
        Log.read Submission.reader (octets ++ more) = .ok (us ++ vs)) ∧
    (∀ words file octets e, v.Ingests files words file octets →
      Log.read Submission.reader octets = .error e → ∀ input, Refuses words input files) ∧
    ∀ es, v.Ready files es →
      (∀ p, v.Supplies files p → ∀ input, ∃ t,
        p.Leaves input files t ∧ v.Appends files t es p.records) ∧
      ∀ p q words file, v.Follows files p q →
        v.Ingests files words file (p.octets ++ q.octets) → ∀ input input' input'', ∃ t u,
          p.Leaves input files t ∧ q.Leaves input' t u ∧
            (p.join q words file).Leaves input'' files u := by
  refine ⟨fun octets ↦ Log.exists_read_iff, ?appended, ?rejected, fun es hready ↦
    ⟨?accepted, ?composed⟩⟩
  case appended =>
    intro octets more us vs hclosed hus hvs
    exact Log.read_append_of_isClosed hclosed hus hvs
  case rejected =>
    intro words file octets e hfile hread input
    exact refuses_of_read hfile hread input
  case accepted =>
    intro p hp input
    exact hready.appends hp input
  case composed =>
    intro p q words file hpq hboth
    exact hready.leaves_join hpq hboth

/-- A record of nothing but names. -/
def plain : Submission := ⟨{ kind := "a", name := "b" }, []⟩

/-- A record with a statement. -/
def typed : Submission := ⟨{ kind := "M", name := "c", tokens := some 7 }, [⟨"ex:s", "type", "M"⟩]⟩

/-- What is in a file with one record. -/
def lineOf (u : Submission) : List UInt8 := Utf8.encode (u.record ++ Log.LineEnd.feed.text)

/-- A record in front of what is none. -/
def spoilt : List UInt8 := lineOf plain ++ [91, 10]

/-- A tree with two files, one that holds what is in both, and one that is not read. -/
def parted : FileTree :=
  FileTree.set {} ["a".toList] (.file (lineOf plain))
    |>.set ["b".toList] (.file (lineOf typed))
    |>.set ["c".toList] (.file (lineOf plain ++ lineOf typed))
    |>.set ["d".toList] (.file spoilt)

/-- The options that hold if none are given. -/
def usual : Invocation := ⟨"data/graphs", "index.jsonl", none, .list⟩

theorem closed_parted : parted.Closed := by
  have hempty : FileTree.Closed {} := fun q name h ↦ by simp [FileTree.node?] at h
  have hset {t : FileTree} (ht : t.Closed) (name : FileName) (octets : List UInt8)
      (hfree : t.node? [name] ≠ some .directory) : (t.set [name] (.file octets)).Closed :=
    ht.set_file (q := []) rfl hfree octets
  have ha := hset hempty "a".toList (lineOf plain) (by decide +kernel)
  have hb := hset ha "b".toList (lineOf typed) (by decide +kernel)
  have hc := hset hb "c".toList (lineOf plain ++ lineOf typed) (by decide +kernel)
  exact hset hc "d".toList spoilt (by decide +kernel)

theorem ready_parted : usual.Ready parted [] where
  index := rfl
  stores := by
    have hfresh : Directory.Fresh ⟨parted, Path.ofString "data/graphs"⟩ :=
      Directory.fresh_of_missing closed_parted (by decide +kernel) (by decide +kernel)
        (.inl (by decide +kernel))
    exact hfresh.stores (by decide +kernel)
  legible := fun e he ↦ (List.not_mem_nil he).elim

/-- A file with one record. -/
def supplyOf (file : String) (u : Submission) : Supply := ⟨["ingest", file], file, lineOf u, [u]⟩

theorem run_ingest_files_parted :
    usual.Ready parted [] ∧
      usual.Follows parted (supplyOf "a" plain) (supplyOf "b" typed) ∧
      usual.Ingests parted ["ingest", "c"] "c" (lineOf plain ++ lineOf typed) ∧
      usual.Ingests parted ["ingest", "d"] "d" spoilt ∧
      Refuses ["ingest", "d"] [] parted ∧
      ∃ t u, run ["ingest", "a"] [] parted = (⟨.success, ingestedLine 1 "a"⟩, t) ∧
        (usual.access t).storage.Keeps "index.jsonl" (Log.octets (.ofSubmission plain)) ∧
        run ["ingest", "b"] [] t = (⟨.success, ingestedLine 1 "b"⟩, u) ∧
        run ["ingest", "c"] [] parted = (⟨.success, ingestedLine 2 "c"⟩, u) := by
  have hc : usual.Ingests parted ["ingest", "c"] "c" (lineOf plain ++ lineOf typed) :=
    ⟨by decide +kernel, by decide +kernel⟩
  have hd : usual.Ingests parted ["ingest", "d"] "d" spoilt :=
    ⟨by decide +kernel, by decide +kernel⟩
  have hplain : usual.Supplies parted (supplyOf "a" plain) :=
    ⟨⟨by decide +kernel, by decide +kernel⟩, Submission.read_record rfl .feed⟩
  have htyped : usual.Supplies parted (supplyOf "b" typed) :=
    ⟨⟨by decide +kernel, by decide +kernel⟩, Submission.read_record rfl .feed⟩
  have hfollows : usual.Follows parted (supplyOf "a" plain) (supplyOf "b" typed) := by
    refine ⟨hplain, htyped, .inr (by decide +kernel), fun u hu ↦ ?_, by decide +kernel⟩
    obtain rfl := List.mem_singleton.mp hu
    exact ⟨_, Identifier.reread_of_none rfl⟩
  have hspoilt : (Log.read Submission.reader spoilt).map (fun _ ↦ ()) = .error .serialization := by
    decide +kernel
  obtain ⟨-, -, hrejected, hready⟩ := run_ingest_files usual parted
  have hrefuses := hrejected _ _ _ _ hd (map_eq_error_iff.mp hspoilt) []
  obtain ⟨haccepted, hcomposed⟩ := hready [] ready_parted
  obtain ⟨t, hleaves, happends⟩ := haccepted _ hplain []
  obtain ⟨t', u, hfirst, hnext, hboth⟩ := hcomposed _ _ _ _ hfollows hc [] [] []
  obtain rfl : t = t' := (Prod.mk.inj (hleaves.symm.trans hfirst)).2
  exact ⟨ready_parted, hfollows, hc, hd, hrefuses, t, u, hfirst,
    happends.log (List.cons_ne_nil _ _), hnext, hboth⟩

/-- A file stands where a directory is needed on the way to the index file. -/
def occupied : FileTree := (filesWith plain).set ["data".toList] (.file [])

/-- That the index file is missing is not enough: when it cannot be created, the run fails. -/
theorem run_ingest_occupied :
    usual.Ingests occupied ["ingest", "in.jsonl"] "in.jsonl" (lineOf plain) ∧
      (usual.index occupied).isOk = true ∧
      occupied.node? (Path.place (occupied.start usual.indexPath) usual.indexPath) = none ∧
      ¬ Directory.Inside ⟨occupied, Path.ofString "data/graphs"⟩
        (Path.place (occupied.start (Path.ofString "in.jsonl")) (Path.ofString "in.jsonl")) ∧
      Log.read Submission.reader (lineOf plain) = .ok [plain] ∧ plain.identifier.score = none ∧
      (run ["ingest", "in.jsonl"] [] occupied).1.exit.code = 1 := by
  have hfile : usual.Ingests occupied ["ingest", "in.jsonl"] "in.jsonl" (lineOf plain) :=
    ⟨by decide +kernel, by decide +kernel⟩
  have hplain : Log.read Submission.reader (lineOf plain) = .ok [plain] :=
    Submission.read_record rfl .feed
  exact ⟨hfile, rfl, by decide +kernel, by decide +kernel, hplain, rfl, by decide +kernel⟩

end Command

end TripleIndex
