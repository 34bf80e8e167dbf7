import TripleIndex.Proofs.Failure
import TripleIndex.Proofs.Neighbours
import TripleIndex.Proofs.Replay

/-!
# Indexes that share a log

Several indexes may keep their entries under one key of one storage.  Each has its own memory, which
goes stale when another one adds, and each decides by that memory whether an addition is new or
replaces an entry.  The log does not depend on any of this: it has one record per addition that
succeeds, in the order of the additions (`Peers.Records.step`).  So every index that loads comes to
hold the same entries, the newest of each identifier.

A storage may be unable to hold the key at all, as a directory is if a name of the key is too long.
Then no addition succeeds, and whether loading does is up to the storage: an addition that fails can
put an end to it (`Peers.load_fails_behind_addition`).
-/

namespace TripleIndex

namespace Operation

theorem perform_opening (o : Operation) (i : Index) (a : Access) :
    (o.perform i a).2.1.opening = i.opening := by
  rcases o.perform_index i a with h | h | ⟨u, -, h⟩
  · rw [h]
  · exact Index.opening_of_load h
  · rw [h]
    exact Index.add_opening i a u

/-- The entry that an operation files, if it is an addition that succeeds. -/
def filing (o : Operation) (i : Index) (a : Access) : List Entry :=
  match o with
  | .add u => if (i.add a u).1.isOk then [Entry.ofSubmission u] else []
  | _ => []

theorem filing_of_not_addition {o : Operation} (h : o.isAddition = false) (i : Index)
    (a : Access) : o.filing i a = [] := by
  cases o with
  | add u => cases h
  | _ => rfl

theorem filing_of_add_eq_error {u : Submission} {i : Index} {a : Access} {e : Error}
    (h : (i.add a u).1 = .error e) : (Operation.add u).filing i a = [] := by
  rw [filing, h]
  rfl

/-- Only additions touch the storage. -/
theorem perform_access {o : Operation} (h : o.isAddition = false) (i : Index) (a : Access) :
    (o.perform i a).2.2 = a := by
  cases o with
  | add u => cases h
  | load =>
    rw [perform]
    cases i.load a <;> rfl
  | _ => rfl

end Operation

namespace Storage

/-- Nothing is stored under the key: it is not found, and no file stands where it leads. -/
structure Lacks (s : Storage) (key : String) : Prop where
  contains : s.contains key = .ok false
  filed : s.filed? key = none

/-- The storage can hold octets under the key. -/
def Takes (s : Storage) (key : String) : Prop :=
  ∀ octets, ∃ s', s.append key octets = (.ok (), s')

theorem takes_memory (m : Memory) (key : String) : (memory m).Takes key :=
  fun _ ↦ ⟨_, rfl⟩

/-- The storage has a log of some entries under a key, or nothing yet.  In the latter case it can
hold the log if it was able to from the beginning. -/
inductive Carries (s : Storage) (key : String) (able : Prop) : List Entry → Prop where
  | nothing (filed : s.filed? key = none)
      (room : able → s.contains key = .ok false ∧ s.Takes key) : Carries s key able []
  | records {es : List Entry} (h : s.Records key es) : Carries s key able es

namespace Carries

variable {a b : Access} {key : String} {able : Prop} {es : List Entry}

theorem append (h : a.storage.Carries key able es) {e : Entry} (he : e.identifier.score = none)
    (hb : a.append key (Log.octets e) = (.ok (), b)) :
    b.storage.Carries key able (es ++ [e]) := by
  refine .records (records_of_append ?_ he (Access.append_eq_ok hb).2)
  cases h with
  | nothing filed _ => exact .inl ⟨filed, rfl⟩
  | records h => exact .inr h

theorem of_append_eq_error (h : a.storage.Carries key able es) {octets : List UInt8}
    {f : StorageFault} (hb : a.append key octets = (.error f, b)) :
    b.storage.Carries key able es := by
  obtain ⟨haccess, hfiled, hkept, -⟩ := Access.append_eq_error hb
  cases h with
  | nothing filed room =>
    refine .nothing ((hfiled key).trans filed) fun hable ↦ ?_
    rcases haccess with rfl | ⟨-, hown⟩
    · exact room hable
    · -- A storage with room for the key does not fail by itself.
      obtain ⟨s', hs'⟩ := (room hable).2 octets
      rw [hown] at hs'
      cases hs'
  | records h =>
    obtain ⟨os, hkeeps, hread⟩ := h
    exact .records ⟨os, hkept key os hkeeps, hread⟩

/-- An addition records its entry behind the others if it succeeds, and nothing otherwise. -/
theorem add {i : Index} (h : a.storage.Carries i.catalog.key able es) {u : Submission}
    (hu : u.identifier.score = none) :
    (i.add a u).2.2.storage.Carries i.catalog.key able (es ++ (Operation.add u).filing i a) := by
  rw [Operation.filing]
  cases hresult : (i.add a u).1 with
  | ok r =>
    obtain ⟨j, hj, hwritten, -⟩ := Index.eq_of_add (Prod.ext hresult rfl)
    rw [Index.key_of_ensureLoaded hj] at hwritten
    exact h.append hu hwritten
  | error e =>
    rw [Except.isOk, Except.toBool, if_neg Bool.false_ne_true, List.append_nil]
    rcases Index.add_eq_error (Prod.ext hresult rfl) with ⟨-, -, ha⟩ | ⟨f, -, hj, hwritten⟩
    · rw [ha]
      exact h
    · rw [Index.key_of_ensureLoaded hj] at hwritten
      exact h.of_append_eq_error hwritten

theorem perform {o : Operation} (ho : o.IsUnscored) {i : Index}
    (h : a.storage.Carries i.catalog.key able es) :
    (o.perform i a).2.2.storage.Carries i.catalog.key able (es ++ o.filing i a) := by
  cases hadd : o.isAddition with
  | true =>
    cases o with
    | add u => exact h.add ho
    | _ => cases hadd
  | false =>
    rw [Operation.perform_access hadd, Operation.filing_of_not_addition hadd, List.append_nil]
    exact h

/-- What any index reads that looks for the log. -/
theorem replay (h : a.storage.Carries key able es) (ha : a.Reads) (hable : able ∨ es ≠ [])
    {c : Catalog} (hc : c.key = key) : c.replay a = .ok (.ofList es) := by
  subst hc
  cases h with
  | nothing filed room =>
    have hyes : able := hable.resolve_right fun hne ↦ hne rfl
    exact Catalog.replay_of_absent (ha.contains_eq.trans (room hyes).1)
  | records h =>
    obtain ⟨octets, hkeeps, hread, -⟩ := h
    rw [Catalog.replay_of_keeps ha hkeeps, hread]
    rfl

end Carries

end Storage

/-- Indexes over one storage. -/
structure Peers (ι : Type) where
  index : ι → Index
  access : Access

namespace Peers

variable {ι : Type}

/-- What can happen among peers. -/
inductive Event (ι : Type) where
  | perform (k : ι) (o : Operation)
  /-- From now on the storage is asked in vain for some kinds of calls. -/
  | refuse (calls : List Call)

namespace Event

/-- No identifier with a score is filed. -/
def IsUnscored : Event ι → Prop
  | .perform _ o => o.IsUnscored
  | .refuse _ => True

/-- An operation that adds nothing. -/
def IsReading : Event ι → Prop
  | .perform _ o => o.isAddition = false
  | .refuse _ => False

end Event

/-- Every index is new, and keeps its log under the same key. -/
def Opens (key : String) (x : Peers ι) : Prop :=
  ∀ k, ∃ s : Settings, s.indexKey = key ∧ Index.create s = .ok (x.index k)

def step [DecidableEq ι] (x : Peers ι) : Event ι → Peers ι
  | .perform k o =>
    let r := (o.perform (x.index k) x.access).2
    ⟨Function.update x.index k r.1, r.2⟩
  | .refuse calls => { x with access := { x.access with refused := calls } }

def after [DecidableEq ι] (x : Peers ι) (events : List (Event ι)) : Peers ι := events.foldl step x

@[simp] theorem after_nil [DecidableEq ι] (x : Peers ι) : x.after [] = x := rfl

@[simp] theorem after_cons [DecidableEq ι] (x : Peers ι) (e : Event ι) (events : List (Event ι)) :
    x.after (e :: events) = (x.step e).after events := rfl

/-- The entry that an event files. -/
def filing (x : Peers ι) : Event ι → List Entry
  | .perform k o => o.filing (x.index k) x.access
  | .refuse _ => []

/-- The entries that the events of a run file, in the order of the events. -/
def filings [DecidableEq ι] (x : Peers ι) : List (Event ι) → List Entry
  | [] => []
  | e :: events => x.filing e ++ (x.step e).filings events

/-! ## The log -/

/-- The storage has a log of some entries, and every index knows where it is. -/
structure Records (x : Peers ι) (key : String) (able : Prop) (es : List Entry) : Prop where
  keys : ∀ k, (x.index k).catalog.key = key
  log : x.access.storage.Carries key able es

theorem records_of_opens {x : Peers ι} {key : String} (hx : x.Opens key)
    (hlacks : x.access.storage.Lacks key) :
    x.Records key (x.access.storage.Takes key) [] where
  keys k := by
    obtain ⟨s, rfl, hs⟩ := hx k
    rw [Index.eq_of_create hs]
  log := .nothing hlacks.filed fun h ↦ ⟨hlacks.contains, h⟩

namespace Records

variable {x : Peers ι} {key : String} {able : Prop} {es : List Entry}

/-- Whichever index loads, it holds what the log records. -/
theorem load_eq (h : x.Records key able es) (ha : x.access.Reads) (hable : able ∨ es ≠ [])
    (k : ι) : ∃ j, (x.index k).load x.access = .ok j ∧ j.entries = (Entries.ofList es).toList := by
  refine ⟨_, Index.load_eq_ok_iff.mpr ⟨_, h.log.replay ha hable (h.keys k), rfl⟩, ?_⟩
  rw [Index.entries, Index.rebuild_catalog]

variable [DecidableEq ι]

theorem keys_step (h : x.Records key able es) (e : Event ι) (l : ι) :
    ((x.step e).index l).catalog.key = key := by
  rw [← h.keys l]
  cases e with
  | refuse calls => rfl
  | perform k o =>
    by_cases hl : l = k
    · subst hl
      have hopening := o.perform_opening (x.index l) x.access
      simp only [Peers.step, Function.update_self]
      exact congrArg Prod.snd hopening
    · simp only [Peers.step, Function.update_of_ne hl]

theorem step (h : x.Records key able es) {e : Event ι} (he : e.IsUnscored) :
    (x.step e).Records key able (es ++ x.filing e) := by
  refine ⟨h.keys_step e, ?_⟩
  cases e with
  | refuse calls =>
    rw [show x.filing (.refuse calls) = [] from rfl, List.append_nil]
    exact h.log
  | perform k o =>
    have hlog := h.log
    rw [← h.keys k] at hlog ⊢
    exact hlog.perform he

/-- The log has one record per addition that succeeds, in the order of the additions. -/
theorem after (h : x.Records key able es) {events : List (Event ι)}
    (hevents : ∀ e ∈ events, e.IsUnscored) :
    (x.after events).Records key able (es ++ x.filings events) := by
  induction events generalizing x es with
  | nil => simpa [filings] using h
  | cons e events ih =>
    obtain ⟨he, hrest⟩ := List.forall_mem_cons.mp hevents
    rw [after_cons, filings, ← List.append_assoc]
    exact ih (h.step he) hrest

/-! ## Loading -/

/-- An index that holds what the log records goes on holding it, and one that loads begins to. -/
theorem entries_step (h : x.Records key able es) (ha : x.access.Reads) (hable : able ∨ es ≠ [])
    {e : Event ι} (he : e.IsReading) {k : ι}
    (hk : (x.index k).entries = (Entries.ofList es).toList ∨ e = .perform k .load) :
    ((x.step e).index k).entries = (Entries.ofList es).toList := by
  obtain ⟨j, hj, hentries⟩ := h.load_eq ha hable k
  cases e with
  | refuse calls => exact he.elim
  | perform l o =>
    by_cases hl : k = l
    · subst hl
      simp only [Peers.step, Function.update_self]
      rcases hk with hk | hk
      · rcases o.perform_index (x.index k) x.access with hi | hi | ⟨u, rfl, -⟩
        · rw [hi]
          exact hk
        · rw [hj] at hi
          rw [← Except.ok.inj hi]
          exact hentries
        · cases he
      · cases hk
        simp only [Operation.perform, hj]
        exact hentries
    · have hkept : (x.index k).entries = (Entries.ofList es).toList := by
        rcases hk with hk | hk
        · exact hk
        · cases hk
          exact (hl rfl).elim
      simp only [Peers.step, Function.update_of_ne hl]
      exact hkept

theorem access_step {e : Event ι} (he : e.IsReading) : (x.step e).access = x.access := by
  cases e with
  | refuse calls => exact he.elim
  | perform k o => exact Operation.perform_access he _ _

theorem step_of_isReading (h : x.Records key able es) {e : Event ι} (he : e.IsReading) :
    (x.step e).Records key able es := by
  refine ⟨h.keys_step e, ?_⟩
  rw [access_step he]
  exact h.log

/-- Whoever loads while nobody adds holds what the log records, whatever was held before. -/
theorem entries_after (h : x.Records key able es) (ha : x.access.Reads) (hable : able ∨ es ≠ [])
    {later : List (Event ι)} (hlater : ∀ e ∈ later, e.IsReading) {k : ι}
    (hk : (x.index k).entries = (Entries.ofList es).toList ∨ .perform k .load ∈ later) :
    ((x.after later).index k).entries = (Entries.ofList es).toList := by
  induction later generalizing x with
  | nil => exact hk.resolve_right List.not_mem_nil
  | cons e later ih =>
    obtain ⟨he, hrest⟩ := List.forall_mem_cons.mp hlater
    rw [after_cons]
    refine ih (h.step_of_isReading he) (by rwa [access_step he]) hrest ?_
    rcases hk with hk | hk
    · exact .inl (h.entries_step ha hable he (.inl hk))
    · rcases List.mem_cons.mp hk with hk | hk
      · exact .inl (h.entries_step ha hable he (.inr hk.symm))
      · exact .inr hk

end Records

variable [DecidableEq ι]

theorem keyed_of_mem_filings {x : Peers ι} {events : List (Event ι)} {e : Entry}
    (h : e ∈ x.filings events) : e.keyed = e := by
  induction events generalizing x with
  | nil => cases h
  | cons event events ih =>
    rw [filings, List.mem_append] at h
    rcases h with h | h
    · cases event with
      | refuse calls => cases h
      | perform k o =>
        cases o with
        | add u =>
          simp only [filing, Operation.filing] at h
          split at h
          · rw [List.mem_singleton.mp h, Entry.keyed_ofSubmission]
          · cases h
        | _ => cases h
    · exact ih h

theorem toList_ofList_filings (x : Peers ι) (events : List (Event ι)) :
    (Entries.ofList (x.filings events)).toList = Entry.newest (x.filings events) := by
  rw [Entries.toList_ofList]
  have hkeyed : ∀ e ∈ Entry.newest (x.filings events), e.keyed = e :=
    fun e he ↦ keyed_of_mem_filings (Entry.mem_of_mem_newest he)
  exact (List.map_congr_left hkeyed).trans (List.map_id _)

/-- Behind every run of operations of indexes that share a log, whatever they had in memory, the
log has one record per addition that succeeded, in the order of these additions.  Whoever loads then
holds the newest entry of each identifier, in the order in which the identifiers came first. -/
theorem agree_after {x : Peers ι} {key : String} (hx : x.Opens key)
    (hlacks : x.access.storage.Lacks key) {events : List (Event ι)}
    (hevents : ∀ e ∈ events, e.IsUnscored) :
    ((x.after events).access.storage.filed? key = none ∧ x.filings events = [] ∨
        (x.after events).access.storage.Records key (x.filings events)) ∧
      ((x.after events).access.Reads →
        x.access.storage.Takes key ∨ x.filings events ≠ [] →
          (∀ k, ∃ j, ((x.after events).index k).load (x.after events).access = .ok j ∧
            j.entries = Entry.newest (x.filings events)) ∧
          ∀ later, (∀ e ∈ later, e.IsReading) → ∀ k, .perform k .load ∈ later →
            (((x.after events).after later).index k).entries =
              Entry.newest (x.filings events)) := by
  have h := (records_of_opens hx hlacks).after hevents
  rw [List.nil_append] at h
  rw [← toList_ofList_filings]
  refine ⟨?_, fun ha hable ↦ ⟨h.load_eq ha hable, fun later hlater k hk ↦ ?_⟩⟩
  · generalize x.filings events = es at h
    cases h.log with
    | nothing filed _ => exact .inl ⟨filed, rfl⟩
    | records hrecords => exact .inr hrecords
  · exact h.entries_after ha hable hlater (.inr hk)

/-- Two indexes with different namespaces. -/
def couple : Peers Bool where
  index k := { namespaces := if k then .standard else .ofList [], catalog := { key := "log" } }
  access := { storage := .memory {} }

/-- Both have loaded the empty log when they add the same identifier, so each takes it for new.  An
addition is refused in between. -/
def crossing : List (Event Bool) := [
  .perform true .load, .perform false .load,
  .perform true (.add ⟨{ kind := "M", name := "a" }, [⟨"ex:a", "type", "Message"⟩]⟩),
  .perform false (.add ⟨{ kind := "M", name := "b" }, []⟩),
  .perform false (.add ⟨{ kind := "M", name := "a", parent := some "" },
    [⟨"ex:b", "ex:p", "\"\n\""⟩]⟩),
  .refuse [.append],
  .perform true (.add ⟨{ kind := "M", name := "c" }, []⟩),
  .refuse []]

theorem opens_couple : couple.Opens "log" := by
  intro k
  cases k with
  | true => exact ⟨{ indexKey := "log" }, rfl, rfl⟩
  | false => exact ⟨{ indexKey := "log", namespaces := .ofList [] }, rfl, rfl⟩

/-- Before they load, neither index knows of the other's entries, and they disagree on the order. -/
theorem agree_after_crossing :
    couple.Opens "log" ∧ couple.access.storage.Lacks "log" ∧
      (∀ e ∈ crossing, e.IsUnscored) ∧ (couple.after crossing).access.Reads ∧
      couple.access.storage.Takes "log" ∧
      ((couple.after crossing).index true).entries.map (·.identifier.rendering) = ["M.a"] ∧
      ((couple.after crossing).index false).entries.map (·.identifier.rendering) =
        ["M.b", "M.a"] ∧
      (couple.filings crossing).map (·.identifier.rendering) = ["M.a", "M.b", "M.a"] ∧
      ((couple.after crossing).access.storage.filed? "log" = none ∧
          couple.filings crossing = [] ∨
        (couple.after crossing).access.storage.Records "log" (couple.filings crossing)) ∧
      ∀ k, (((couple.after crossing).after
        [.perform false .load, .perform true .load]).index k).entries =
          Entry.newest (couple.filings crossing) := by
  have hlacks : couple.access.storage.Lacks "log" := ⟨rfl, rfl⟩
  have hevents : ∀ e ∈ crossing, e.IsUnscored := by
    simp [crossing, Event.IsUnscored, Operation.IsUnscored]
  have hreads : (couple.after crossing).access.Reads :=
    ⟨by decide +kernel, by decide +kernel⟩
  have htakes : couple.access.storage.Takes "log" := Storage.takes_memory {} "log"
  obtain ⟨hlog, hload⟩ := agree_after opens_couple hlacks hevents
  obtain ⟨-, hlater⟩ := hload hreads (.inl htakes)
  refine ⟨opens_couple, hlacks, hevents, hreads, htakes, by decide +kernel, by decide +kernel,
    by decide +kernel, hlog, fun k ↦ hlater _ ?_ k ?_⟩
  · simp [Event.IsReading, Operation.isAddition]
  · cases k <;> simp

end Peers

/-! ## Keys that a directory cannot hold -/

namespace Directory

/-- What an append leaves for which there is no place are the directories on the way. -/
theorem append_of_locate_eq_error {d : Directory} {key : String} {p : Path} {f : FileFault}
    (hp : d.path key = .ok p) (hmade : (d.files.createAll p.parent).1 = .ok ())
    (hlocate : (d.files.createAll p.parent).2.locate p = .error f) (octets : List UInt8) :
    d.append key octets =
      (.error (fault .openFile p f), { d with files := (d.files.createAll p.parent).2 }) := by
  simp only [append, update, hp, hmade, FileTree.append, FileTree.update, hlocate]

/-- Where the key leads that has a name that is too long. -/
def longPath : Path := ["data".toList, "graphs".toList, "d".toList, List.replicate 256 'n']

theorem path_longKey {d : Directory} (h : d.root = blank.root) : d.path longKey = .ok longPath := by
  rw [path, isValidKey, ofString_longKey, h]
  decide +kernel

theorem checkIndexKey_longKey : checkIndexKey longKey = .ok () := by
  rw [checkIndexKey, longKey, Path.toString, String.toList_ofList]
  decide +kernel

/-- A directory with nothing in it but the directories on the way to this key. -/
def tried : Directory := ⟨(blank.files.createAll longPath.parent).2, blank.root⟩

theorem locate_longPath : tried.files.locate longPath = .error .nameTooLong := by decide +kernel

theorem append_longKey (octets : List UInt8) :
    blank.append longKey octets = (.error (fault .openFile longPath .nameTooLong), tried) :=
  append_of_locate_eq_error (path_longKey rfl) (by decide +kernel) locate_longPath octets

theorem contains_longKey_blank : blank.contains longKey = .ok false := by
  rw [contains, path_longKey rfl]
  decide +kernel

theorem contains_longKey_tried :
    tried.contains longKey = .error (fault .stat longPath .nameTooLong) := by
  rw [contains, path_longKey (d := tried) rfl]
  simp only [locate_longPath]

end Directory

namespace Peers

open Directory (blank longKey longPath tried)

/-- Two indexes that keep their log under a key that the directory cannot hold. -/
def barred : Peers Bool where
  index _ := { namespaces := .standard, catalog := { key := longKey } }
  access := { storage := .directory blank }

theorem opens_barred : barred.Opens longKey :=
  fun _ ↦ ⟨{ indexKey := longKey }, rfl, Index.create_eq_ok Directory.checkIndexKey_longKey⟩

theorem lacks_barred : barred.access.storage.Lacks longKey where
  contains := Directory.contains_longKey_blank
  filed := by
    rw [barred, Storage.filed?, Directory.filed?, Directory.path_longKey rfl]
    decide +kernel

theorem load_barred (k : Bool) : ∃ j, (barred.index k).load barred.access = .ok j ∧
    j.catalog.key = longKey := by
  have hreplay : (barred.index k).catalog.replay barred.access = .ok .empty :=
    Catalog.replay_of_absent Directory.contains_longKey_blank
  refine ⟨_, Index.load_eq_ok_iff.mpr ⟨.empty, hreplay, rfl⟩, ?_⟩
  rw [Index.rebuild_catalog]
  rfl

/-- No index can add anything, and what it has tried stays. -/
theorem add_barred (k : Bool) (u : Submission) : ∃ j, (barred.index k).add barred.access u =
    (.error (.storage (Directory.fault .openFile longPath .nameTooLong)), j,
      { storage := .directory tried }) := by
  obtain ⟨j, hj, hkey⟩ := load_barred k
  have hloaded : (barred.index k).ensureLoaded barred.access = .ok j := hj
  refine ⟨j, ?_⟩
  rw [Index.add_eq, hloaded]
  simp only [hkey, barred, Access.append, Access.permit, Storage.append,
    Directory.append_longKey, List.contains_nil, Bool.false_eq_true, if_false]

/-- An addition, which fails. -/
def vain : Event Bool := .perform true (.add ⟨{ kind := "M", name := "a" }, []⟩)

/-- Both indexes can be loaded as long as nothing stands where the key leads.  Behind an addition
that has failed neither of them can, although nothing has been filed: the directory is there now in
which the name of the log is found to be too long. -/
theorem load_fails_behind_addition :
    barred.Opens longKey ∧ barred.access.storage.Lacks longKey ∧
      (∀ k, ∃ j, (barred.index k).load barred.access = .ok j) ∧
      vain.IsUnscored ∧ (barred.after [vain]).access.Reads ∧ barred.filings [vain] = [] ∧
      ∀ k, ((barred.after [vain]).index k).load (barred.after [vain]).access =
        .error (.storage (Directory.fault .stat longPath .nameTooLong)) := by
  obtain ⟨j, hadd⟩ := add_barred true ⟨{ kind := "M", name := "a" }, []⟩
  have hresult := congrArg Prod.fst hadd
  have hunscored : vain.IsUnscored := rfl
  have haccess : (barred.step vain).access = { storage := .directory tried } := by
    simp only [step, vain, Operation.perform, hadd]
  have hfiling : barred.filing vain = [] := by
    rw [vain, filing]
    exact Operation.filing_of_add_eq_error hresult
  have hreads : (barred.step vain).access.Reads := by
    rw [haccess]
    exact ⟨List.not_mem_nil, List.not_mem_nil⟩
  have hrecords := (records_of_opens opens_barred lacks_barred).step hunscored
  rw [after_cons, after_nil, filings, filings, hfiling]
  refine ⟨opens_barred, lacks_barred, fun k ↦ (load_barred k).imp fun _ h ↦ h.1, hunscored,
    hreads, rfl, fun k ↦ Index.load_of_contains_eq_error ?_⟩
  rw [hrecords.keys k, hreads.contains_eq, haccess]
  exact Directory.contains_longKey_tried

end Peers

end TripleIndex
