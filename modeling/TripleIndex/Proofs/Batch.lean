import TripleIndex.Proofs.Alias
import TripleIndex.Proofs.Refinement
import TripleIndex.Proofs.Sharing

/-!
# Additions in a row

Additions that are made one after the other append one record each, and what they leave in the
storage is told by these appends alone (`Index.addMany_eq`): the index only has to be loaded before
the first of them.  All of them succeed as soon as the first append does, because octets can be
appended to a key that has some.

So it makes no difference to the storage whether additions are made by one index or by another one
that takes over in between.  Loading from it reads back what has been appended, entry by entry
(`Index.load_eq_of_writes`).
-/

namespace TripleIndex

/-! ## Appending one after the other -/

namespace Storage

/-- The storage has octets under a key, or nothing yet, and takes more of them. -/
def Stores (s : Storage) (key : String) (octets : List UInt8) : Prop :=
  s.Keeps key octets ∨ octets = [] ∧ s.Lacks key ∧ s.Takes key

variable {s : Storage} {key : String} {octets : List UInt8}

theorem Stores.append (h : s.Stores key octets) (more : List UInt8) :
    ∃ s', s.append key more = (.ok (), s') ∧ s'.Keeps key (octets ++ more) := by
  rcases h with hkeeps | ⟨rfl, hlacks, htakes⟩
  · obtain ⟨s', hs'⟩ := append_of_keeps hkeeps more
    have hkept := keeps_of_append hs'
    rw [hkeeps.filed] at hkept
    exact ⟨s', hs', hkept⟩
  · obtain ⟨s', hs'⟩ := htakes more
    have hkept := keeps_of_append hs'
    rw [hlacks.filed] at hkept
    exact ⟨s', hs', hkept⟩

end Storage

namespace Directory.Mirrors

variable {d : Directory} {m : Memory} {key : String} (h : d.Mirrors m) (hfit : d.root.Fits key)
  (hsep : m.Separate key)
include h hfit hsep

/-- A directory files under a key what the memory has there. -/
theorem filed?_eq : d.filed? key = m.read key := by
  have hvalid := isValidKey_of_fits hfit
  have hnames : (Path.ofString key).names = Path.ofString key :=
    List.filter_eq_self.mpr fun name hname ↦ by simp [(hfit.plain name hname).moves]
  have hnode : d.made.node? (Path.place (d.made.start (d.root.join (Path.ofString key)))
      (d.root.join (Path.ofString key))) = (m.read key).map .file := by
    rw [h.root_creatable.start_made, place_join hvalid, hnames, h.tree.node?_key hsep]
  have hfiled : d.made.filed? (d.root.join (Path.ofString key)) = m.read key := by
    rw [FileTree.filed?, hnode]
    cases m.read key <;> rfl
  rw [filed?, path_of_fits hfit]
  exact (FileTree.filed?_createAll d.files d.root _).symm.trans hfiled

theorem stores : (Storage.directory d).Stores key ((m.read key).getD []) := by
  cases hread : m.read key with
  | some octets =>
    obtain ⟨q, hlocate⟩ := h.locate_of_read hfit hread
    exact .inl (Storage.keeps_directory (path_of_fits hfit) hlocate)
  | none =>
    have hlacks : d.contains key = .ok false := by
      rw [h.contains_eq hfit hsep, Memory.contains_eq, hread]
      rfl
    refine .inr ⟨rfl, ⟨hlacks, (h.filed?_eq hfit hsep).trans hread⟩, fun octets ↦ ?_⟩
    obtain ⟨d', happend, -, -⟩ := h.append_eq hfit hsep octets
    exact ⟨.directory d', by rw [Storage.append, happend]⟩

end Directory.Mirrors

/-- In a directory whose root does not exist yet there is room under every key that fits. -/
theorem Directory.Fresh.stores {d : Directory} (h : d.Fresh) {key : String}
    (hfit : d.root.Fits key) : (Storage.directory d).Stores key [] := by
  have hsep : Memory.Separate {} key := fun k octets hread ↦ by simp [Memory.read] at hread
  exact h.mirrors.stores hfit hsep

namespace Access

/-- Octets can be appended to those that are stored under a key. -/
structure Writes (a : Access) (key : String) (octets : List UInt8) : Prop where
  permit : .append ∉ a.refused
  stores : a.storage.Stores key octets

/-- Appends octets one after the other, whether or not it succeeds. -/
def appendEach (a : Access) (key : String) (parts : List (List UInt8)) : Access :=
  parts.foldl (fun a octets ↦ (a.append key octets).2) a

@[simp] theorem appendEach_nil (a : Access) (key : String) : a.appendEach key [] = a := rfl

theorem appendEach_append (a : Access) (key : String) (parts more : List (List UInt8)) :
    a.appendEach key (parts ++ more) = (a.appendEach key parts).appendEach key more :=
  List.foldl_append

namespace Writes

variable {a : Access} {key : String} {octets : List UInt8}

theorem append (h : a.Writes key octets) (more : List UInt8) :
    ∃ b, a.append key more = (.ok (), b) ∧ b.refused = a.refused ∧
      b.storage.Keeps key (octets ++ more) := by
  obtain ⟨s, hs, hkeeps⟩ := h.stores.append more
  refine ⟨{ a with storage := s }, ?_, rfl, hkeeps⟩
  simp [Access.append, Access.permit, h.permit, hs]

theorem appendEach_refused (h : a.Writes key octets) (parts : List (List UInt8)) :
    (a.appendEach key parts).refused = a.refused ∧
      (a.appendEach key parts).Writes key (octets ++ parts.flatten) := by
  induction parts generalizing a octets with
  | nil => exact ⟨rfl, by rwa [List.flatten_nil, List.append_nil]⟩
  | cons more parts ih =>
    obtain ⟨b, hb, hrefused, hkeeps⟩ := h.append more
    have hstep : a.appendEach key (more :: parts) = b.appendEach key parts := by
      rw [appendEach, List.foldl_cons, hb]
      rfl
    obtain ⟨hrefused', hwrites⟩ := ih ⟨hrefused ▸ h.permit, .inl hkeeps⟩
    rw [hstep, List.flatten_cons, ← List.append_assoc]
    exact ⟨hrefused'.trans hrefused, hwrites⟩

theorem appendEach (h : a.Writes key octets) (parts : List (List UInt8)) :
    (a.appendEach key parts).Writes key (octets ++ parts.flatten) :=
  (h.appendEach_refused parts).2

/-- Behind an append the octets are found. -/
theorem keeps_appendEach (h : a.Writes key octets) {parts : List (List UInt8)} (hne : parts ≠ []) :
    (a.appendEach key parts).storage.Keeps key (octets ++ parts.flatten) := by
  obtain ⟨init, last, rfl⟩ := List.eq_nil_or_concat parts |>.resolve_left hne
  obtain ⟨b, hb, -, hkeeps⟩ := (h.appendEach init).append last
  rw [List.concat_eq_append, appendEach_append, List.flatten_append, List.flatten_singleton,
    ← List.append_assoc]
  rw [Access.appendEach, List.foldl_cons, hb]
  exact hkeeps

theorem reads_appendEach (h : a.Writes key octets) (ha : a.Reads) (parts : List (List UInt8)) :
    (a.appendEach key parts).Reads := by
  obtain ⟨hrefused, -⟩ := h.appendEach_refused parts
  exact ⟨hrefused ▸ ha.check, hrefused ▸ ha.read⟩

theorem replay_eq (h : a.Writes key octets) (ha : a.Reads) {c : Catalog} (hc : c.key = key) :
    c.replay a = (Log.read Entry.reader octets).map Entries.ofList := by
  subst hc
  rcases h.stores with hkeeps | ⟨rfl, hlacks, -⟩
  · exact Catalog.replay_of_keeps ha hkeeps
  · exact Catalog.replay_of_absent (ha.contains_eq.trans hlacks.contains)

end Writes

end Access

/-! ## Taking entries in -/

theorem Entry.keyed_of_mem_map_ofSubmission {us : List Submission} {e : Entry}
    (h : e ∈ us.map Entry.ofSubmission) : e.keyed = e := by
  obtain ⟨u, -, rfl⟩ := List.mem_map.mp h
  exact keyed_ofSubmission u

namespace Index

variable {i j : Index} {a : Access} {octets : List UInt8}

/-- Takes entries in, one after the other. -/
def enterEach (i : Index) (es : List Entry) : Index := es.foldl enter i

theorem enterEach_opening (i : Index) (es : List Entry) : (i.enterEach es).opening = i.opening := by
  induction es generalizing i with
  | nil => rfl
  | cons e es ih => exact (ih (i.enter e)).trans (enter_opening i e)

theorem enterEach_entries (i : Index) (es : List Entry) :
    (i.enterEach es).catalog.entries = i.catalog.entries.putMany es := by
  induction es generalizing i with
  | nil => rfl
  | cons e es ih =>
    rw [Entries.putMany_cons, ← enter_entries]
    exact ih (i.enter e)

theorem Consistent.enterEach (h : i.Consistent) {es : List Entry} (hes : ∀ e ∈ es, e.keyed = e) :
    (i.enterEach es).Consistent := by
  induction es generalizing i with
  | nil => exact h
  | cons e es ih =>
    obtain ⟨he, hes⟩ := List.forall_mem_cons.mp hes
    exact ih (h.enter he) hes

/-! ## Adding one after the other -/

/-- Additions in a row to an index that can be loaded, from a storage that takes octets under its
key, append the records and take the entries in. -/
theorem addMany_eq (hj : i.ensureLoaded a = .ok j) (ha : a.Writes i.catalog.key octets)
    (us : List Submission) : ∃ x,
      i.addMany a us = (.ok (), x, a.appendEach i.catalog.key
        ((us.map Entry.ofSubmission).map Log.octets)) ∧
      x.ensureLoaded (a.appendEach i.catalog.key ((us.map Entry.ofSubmission).map Log.octets)) =
        .ok (j.enterEach (us.map Entry.ofSubmission)) := by
  induction us generalizing i j a octets with
  | nil => exact ⟨i, rfl, hj⟩
  | cons u us ih =>
    obtain ⟨b, hb, hrefused, hkeeps⟩ := ha.append (Log.octets (.ofSubmission u))
    have hadd : i.add a u = (.ok (), j.enter (.ofSubmission u), b) := by
      rw [add_eq, hj]
      dsimp only
      rw [key_of_ensureLoaded hj, hb]
    have hkey : (j.enter (.ofSubmission u)).catalog.key = i.catalog.key :=
      congrArg Prod.snd ((enter_opening j _).trans (opening_of_ensureLoaded hj))
    have hloaded : (j.enter (.ofSubmission u)).catalog.loaded = true := by
      rw [enter_loaded, loaded_of_ensureLoaded hj]
    have hstep : a.appendEach i.catalog.key
        (((u :: us).map Entry.ofSubmission).map Log.octets) =
        b.appendEach i.catalog.key ((us.map Entry.ofSubmission).map Log.octets) := by
      rw [List.map_cons, List.map_cons, Access.appendEach, List.foldl_cons, hb]
      rfl
    -- The index that the first addition leaves is loaded, and the next ones go on with it.
    have hwrites : b.Writes (j.enter (.ofSubmission u)).catalog.key
        (octets ++ Log.octets (.ofSubmission u)) := by
      rw [hkey]
      exact ⟨hrefused ▸ ha.permit, .inl hkeeps⟩
    obtain ⟨x, hx, hload⟩ := ih (ensureLoaded_of_loaded hloaded b) hwrites
    rw [hkey] at hx hload
    refine ⟨x, ?_, ?_⟩
    · rw [addMany, hadd, hstep]
      exact hx
    · rw [hstep]
      exact hload

/-- Additions in a row do not change what the index has been opened with. -/
theorem addMany_opening (i : Index) (a : Access) (us : List Submission) :
    (i.addMany a us).2.1.opening = i.opening := by
  induction us generalizing i a with
  | nil => rfl
  | cons u us ih =>
    rw [addMany]
    cases (i.add a u).1 with
    | error e => exact add_opening i a u
    | ok _ => exact (ih _ _).trans (add_opening i a u)

/-! ## Loading what has been appended -/

/-- The index when a log of some entries has been loaded. -/
def loadedWith (i : Index) (es : List Entry) : Index :=
  { i with catalog := { i.catalog with entries := .ofList es, loaded := true } }.rebuild

theorem loadedWith_entries (i : Index) (es : List Entry) :
    (i.loadedWith es).catalog.entries = .ofList es := by
  rw [loadedWith, rebuild_catalog]

theorem consistent_loadedWith (i : Index) (es : List Entry) : (i.loadedWith es).Consistent :=
  consistent_rebuild (Entries.valid_ofList es)

/-- Loading reads the octets that are stored under the key, as an empty log if there are none. -/
theorem load_eq_of_writes (ha : a.Writes i.catalog.key octets) (hreads : a.Reads) :
    i.load a = (Log.read Entry.reader octets).map i.loadedWith := by
  rw [load, Catalog.load, ha.replay_eq hreads rfl]
  cases Log.read Entry.reader octets <;> rfl

theorem loaded_loadedWith (i : Index) (es : List Entry) :
    (i.loadedWith es).catalog.loaded = true := by
  rw [loadedWith, rebuild_catalog]

/-- What additions in a row to a consistent index lead to: the log has their records behind those it
had, and the index has taken their entries in. -/
theorem exists_addMany (hj : i.ensureLoaded a = .ok j) (hconsistent : j.Consistent)
    (ha : a.Writes i.catalog.key octets) (hreads : a.Reads) (us : List Submission) :
    ∃ x b k, i.addMany a us = (.ok (), x, b) ∧ b.Reads ∧
      b.Writes i.catalog.key (octets ++ (us.map Entry.ofSubmission).flatMap Log.octets) ∧
      x.ensureLoaded b = .ok k ∧ k.Consistent ∧ k.opening = i.opening ∧
      k.catalog.entries = j.catalog.entries.putMany (us.map Entry.ofSubmission) := by
  obtain ⟨x, hx, hload⟩ := addMany_eq hj ha us
  refine ⟨x, _, _, hx, ha.reads_appendEach hreads _, ha.appendEach _, hload,
    hconsistent.enterEach fun e ↦ Entry.keyed_of_mem_map_ofSubmission, ?_, enterEach_entries j _⟩
  rw [enterEach_opening, opening_of_ensureLoaded hj]

end Index

end TripleIndex
