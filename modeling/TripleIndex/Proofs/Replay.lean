import TripleIndex.Proofs.Consistency
import TripleIndex.Proofs.Loading
import TripleIndex.Proofs.Log
import TripleIndex.Proofs.Storage

/-!
# Memory and log agree

An index that is the only one to write its log has in memory what replaying the log gives.  The
invariant (`Session.InStep`) says that the log records entries whose list is the one in memory, and
ends between two lines; an addition appends to both sides alike.

Since the derived structures follow the entries, loading then returns the very index, and whether it
is loaded or not makes no difference to any answer (`Session.InStep.perform_asLoaded`).
-/

namespace TripleIndex

/-! ## Logs under a key -/

/-- Nothing is stored under the key: it is not found, and no file stands where it leads. -/
structure Access.Lacks (a : Access) (key : String) : Prop where
  contains : a.contains key = .ok false
  filed : a.storage.filed? key = none

/-- The access finds a log of some entries under a key, to which another line can be appended. -/
def Access.Logs (a : Access) (key : String) (es : List Entry) : Prop :=
  a.Lacks key ∧ es = [] ∨ ∃ octets, a.storage.Keeps key octets ∧
    Log.read Entry.reader octets = .ok es ∧ Log.endsBetweenLines octets = true

/-- The storage finds a log of some entries under a key, to which another line can be appended. -/
def Storage.Records (s : Storage) (key : String) (es : List Entry) : Prop :=
  ∃ octets, s.Keeps key octets ∧ Log.read Entry.reader octets = .ok es ∧
    Log.endsBetweenLines octets = true

/-- Appending what an entry adds to a log makes a log with the entry behind the others. -/
theorem Storage.records_of_append {s s' : Storage} {key : String} {es : List Entry} {e : Entry}
    (h : s.filed? key = none ∧ es = [] ∨ s.Records key es) (he : e.identifier.score = none)
    (happend : s.append key (Log.octets e) = (.ok (), s')) : s'.Records key (es ++ [e]) := by
  have hkeeps := keeps_of_append happend
  rcases h with ⟨hfiled, rfl⟩ | ⟨octets, hold, hread, hend⟩
  · rw [hfiled] at hkeeps
    have hnil : Log.read Entry.reader [] = .ok [] := rfl
    have hdecode : Text.Utf8.decode [] = .ok [] := rfl
    exact ⟨_, hkeeps, Log.read_append hnil he, Log.endsBetweenLines_append hdecode e⟩
  · rw [hold.filed] at hkeeps
    obtain ⟨cs, hcs, -⟩ := Log.read_eq_ok_iff.mp hread
    refine ⟨_, hkeeps, ?_, Log.endsBetweenLines_append hcs e⟩
    exact (Log.read_append hread he).trans (if_pos hend)

/-- Nothing under the key is read as an empty log. -/
theorem Catalog.replay_of_absent {a : Access} {c : Catalog} (h : a.contains c.key = .ok false) :
    c.replay a = .ok .empty := by
  rw [Catalog.replay, h]

theorem Catalog.replay_of_keeps {a : Access} {c : Catalog} {octets : List UInt8} (ha : a.Reads)
    (h : a.storage.Keeps c.key octets) :
    c.replay a = (Log.read Entry.reader octets).map Entries.ofList :=
  Catalog.replay_of_finds (ha.finds h)

namespace Access.Logs

variable {a b : Access} {key : String} {es : List Entry}

theorem replay (h : a.Logs key es) (ha : a.Reads) {c : Catalog} (hc : c.key = key) :
    c.replay a = .ok (.ofList es) := by
  rcases h with ⟨hlacks, rfl⟩ | ⟨octets, hkeeps, hread, -⟩
  · exact Catalog.replay_of_absent (hc ▸ hlacks.contains)
  · rw [Catalog.replay_of_keeps ha (hc ▸ hkeeps), hread]
    rfl

/-- Appending what an entry adds to a log records the entry behind the others. -/
theorem append (h : a.Logs key es) {e : Entry} (he : e.identifier.score = none)
    (hb : a.append key (Log.octets e) = (.ok (), b)) : b.Logs key (es ++ [e]) := by
  refine .inr (Storage.records_of_append ?_ he (append_eq_ok hb).2)
  exact h.imp_left fun hlacks ↦ ⟨hlacks.1.filed, hlacks.2⟩

end Access.Logs

/-! ## Sessions in step -/

namespace Operation

def isLoad : Operation → Bool
  | .load => true
  | _ => false

def isAddition : Operation → Bool
  | .add _ => true
  | _ => false

/-- No identifier with a score is filed. -/
def IsUnscored : Operation → Prop
  | .add u => u.identifier.score = none
  | _ => True

end Operation

/-- The same index, known to be loaded. -/
def Index.asLoaded (i : Index) : Index := { i with catalog := { i.catalog with loaded := true } }

theorem Index.Consistent.asLoaded {i : Index} (h : i.Consistent) : i.asLoaded.Consistent :=
  ⟨h.entries, h.store, h.subjects⟩

theorem Index.asLoaded_of_loaded {i : Index} (h : i.catalog.loaded = true) : i.asLoaded = i := by
  obtain ⟨ns, ⟨key, es, loaded⟩, store, subjects⟩ := i
  obtain rfl : loaded = true := h
  rfl

namespace Session

/-- The log records the entries that the index has in memory. -/
structure InStep (x : Session) : Prop where
  consistent : x.index.Consistent
  reads : x.access.Reads
  logs : ∃ es, x.access.Logs x.index.catalog.key es ∧ x.index.catalog.entries = .ofList es

theorem inStep_of_opens {s : Settings} {x : Session} (hx : x.Opens s)
    (hlacks : x.access.Lacks s.indexKey) (hread : .read ∉ x.access.refused) : x.InStep := by
  have hcheck := Access.check_notMem_of_contains hlacks.contains
  obtain ⟨i, a⟩ := x
  obtain rfl := Index.eq_of_create hx
  exact ⟨Index.consistent_create hx, ⟨hcheck, hread⟩, [], .inl ⟨hlacks, rfl⟩, rfl⟩

namespace InStep

variable {x : Session}

/-- Loading any index with the same namespaces and the same key returns the index in step. -/
theorem load_eq (h : x.InStep) {j : Index} (hns : j.namespaces = x.index.namespaces)
    (hkey : j.catalog.key = x.index.catalog.key) : j.load x.access = .ok x.index.asLoaded := by
  obtain ⟨es, hlogs, hes⟩ := h.logs
  refine Index.load_eq_ok_iff.mpr ⟨_, hlogs.replay h.reads hkey, ?_⟩
  rw [← h.consistent.asLoaded.rebuild_eq_self, Index.rebuild_eq, Index.rebuild_eq, ← hes]
  obtain ⟨ns, ⟨key, es', loaded⟩, store, subjects⟩ := j
  obtain rfl : ns = x.index.namespaces := hns
  obtain rfl : key = x.index.catalog.key := hkey
  rfl

theorem ensureLoaded_eq (h : x.InStep) :
    x.index.ensureLoaded x.access = .ok x.index.asLoaded := by
  cases hloaded : x.index.catalog.loaded with
  | true => rw [Index.ensureLoaded_of_loaded hloaded, Index.asLoaded_of_loaded hloaded]
  | false => rw [Index.ensureLoaded_of_not_loaded hloaded, h.load_eq rfl rfl]

theorem asLoaded (h : x.InStep) : InStep ⟨x.index.asLoaded, x.access⟩ :=
  ⟨h.consistent.asLoaded, h.reads, h.logs⟩

/-- Whether an index in step is loaded makes no difference to what an operation does. -/
theorem perform_asLoaded (h : x.InStep) (o : Operation) :
    o.perform x.index.asLoaded x.access = o.perform x.index x.access := by
  have hload : x.index.asLoaded.load x.access = x.index.load x.access :=
    (h.load_eq rfl rfl).trans (h.load_eq rfl rfl).symm
  have hensure : x.index.asLoaded.ensureLoaded x.access = x.index.ensureLoaded x.access := by
    rw [h.ensureLoaded_eq, Index.ensureLoaded_of_loaded rfl]
  have hask {α : Type} (answer : Index → α) :
      x.index.asLoaded.ask x.access answer = x.index.ask x.access answer := by
    rw [Index.ask, Index.ask, hensure, h.ensureLoaded_eq]
  cases o with
  | load => simp only [Operation.perform, hload, h.load_eq]
  | add u => simp only [Operation.perform, Index.add_eq, hensure, h.ensureLoaded_eq]
  | query p f => simp only [Operation.perform, Index.query, hask]
  | has id => simp only [Operation.perform, Index.has, hask]
  | get id => simp only [Operation.perform, Index.get?, hask]
  | identifiers => simp only [Operation.perform, Index.identifiers, hask]
  | typedSubjects type? => simp only [Operation.perform, Index.typedSubjects, hask]
  | stats => simp only [Operation.perform, Index.stats, hask]

/-- A successful addition of an entry without a score keeps the log in step. -/
theorem add (h : x.InStep) {u : Submission} (hu : u.identifier.score = none) {i : Index}
    {a : Access} (hadd : x.index.add x.access u = (.ok (), i, a)) : InStep ⟨i, a⟩ := by
  obtain ⟨es, hlogs, hes⟩ := h.logs
  obtain ⟨j, hj, hwritten, rfl⟩ := Index.eq_of_add hadd
  obtain rfl : x.index.asLoaded = j := Except.ok.inj (h.ensureLoaded_eq.symm.trans hj)
  have hkeyed := Entry.keyed_ofSubmission u
  refine ⟨h.consistent.asLoaded.enter hkeyed, h.reads.of_append hwritten,
    es ++ [Entry.ofSubmission u], ?_, ?_⟩
  · dsimp only
    rw [h.consistent.asLoaded.enter_eq_rebuild hkeyed, Index.rebuild_catalog]
    exact hlogs.append hu hwritten
  · dsimp only
    rw [h.consistent.asLoaded.enter_eq_rebuild hkeyed, Index.rebuild_catalog, Entries.ofList,
      Entries.putMany_append, ← Entries.ofList, ← hes]
    rfl

theorem step_load (h : x.InStep) :
    x.step (.perform .load) = ⟨x.index.asLoaded, x.access⟩ := by
  simp only [Session.step, Operation.perform, h.load_eq]

theorem perform_load (h : x.InStep) :
    (Operation.load.perform x.index x.access).1 = .ok .done := by
  simp only [Operation.perform, h.load_eq]

theorem step (h : x.InStep) {o : Operation} (ho : o.IsUnscored)
    (hok : o.isAddition = true → (o.perform x.index x.access).1.isOk = true) :
    (x.step (.perform o)).InStep := by
  have hask {α : Type} (answer : Index → α) :
      InStep ⟨(x.index.ask x.access answer).2, x.access⟩ := by
    rw [Index.ask_snd, Index.settle, h.ensureLoaded_eq]
    exact h.asLoaded
  cases o with
  | load =>
    rw [h.step_load]
    exact h.asLoaded
  | add u =>
    obtain ⟨_, hanswer⟩ := eq_ok_of_isOk (hok rfl)
    obtain ⟨_, hadded, -⟩ := map_eq_ok_iff.mp hanswer
    exact h.add ho (Prod.ext hadded rfl)
  | query p f => exact hask _
  | has id => exact hask _
  | get id => exact hask _
  | identifiers => exact hask _
  | typedSubjects type? => exact hask _
  | stats => exact hask _

end InStep

/-! ## Runs -/

/-- The operations of a run with their answers. -/
def trace (x : Session) : List Operation → List (Operation × Except Error Answer)
  | [] => []
  | o :: os => (o, (o.perform x.index x.access).1) :: (x.step (.perform o)).trace os

/-- Every addition of a run succeeds. -/
def Adds (x : Session) (os : List Operation) : Prop :=
  ∀ r ∈ x.trace os, r.1.isAddition = true → r.2.isOk = true

instance (x : Session) (os : List Operation) : Decidable (x.Adds os) :=
  inferInstanceAs (Decidable (∀ r ∈ x.trace os, r.1.isAddition = true → r.2.isOk = true))

/-- A run without its loads. -/
def withoutLoads (os : List Operation) : List Operation := os.filter fun o ↦ !o.isLoad

namespace InStep

variable {x : Session}

theorem trace_asLoaded (h : x.InStep) (os : List Operation) :
    trace ⟨x.index.asLoaded, x.access⟩ os = x.trace os := by
  cases os with
  | nil => rfl
  | cons o os => simp only [trace, Session.step, h.perform_asLoaded]

/-- Loads change neither the other answers nor whether the log is in step. -/
theorem run (h : x.InStep) {os : List Operation} (hos : ∀ o ∈ os, o.IsUnscored)
    (hadds : x.Adds (withoutLoads os)) :
    (x.after (os.map .perform)).InStep ∧
      (x.trace os).filter (fun r ↦ !r.1.isLoad) = x.trace (withoutLoads os) ∧
      ∀ r ∈ x.trace os, r.1.isLoad = true → r.2 = .ok .done := by
  induction os generalizing x with
  | nil => exact ⟨h, rfl, fun _ hr ↦ (List.not_mem_nil hr).elim⟩
  | cons o os ih =>
    obtain ⟨ho, hrest⟩ := List.forall_mem_cons.mp hos
    cases hload : o.isLoad with
    | true =>
      obtain rfl : o = .load := by
        cases o with
        | load => rfl
        | _ => cases hload
      -- A load leads to the loaded index, from which the rest of the run goes the same way.
      have hskip : withoutLoads (.load :: os) = withoutLoads os := rfl
      rw [hskip, Adds, ← h.trace_asLoaded] at hadds
      obtain ⟨hstep, htrace, hloads⟩ := ih h.asLoaded hrest hadds
      refine ⟨?_, ?_, ?_⟩
      · rw [List.map_cons, after_cons, h.step_load]
        exact hstep
      · rw [hskip, ← h.trace_asLoaded (withoutLoads os), ← htrace, trace, h.step_load]
        rfl
      · rw [trace, h.step_load]
        refine List.forall_mem_cons.mpr ⟨fun _ ↦ h.perform_load, hloads⟩
    | false =>
      have hkeep : withoutLoads (o :: os) = o :: withoutLoads os := by
        simp [withoutLoads, hload]
      rw [hkeep, Adds, trace] at hadds
      obtain ⟨hadd, hadds⟩ := List.forall_mem_cons.mp hadds
      obtain ⟨hstep, htrace, hloads⟩ := ih (h.step ho hadd) hrest hadds
      refine ⟨hstep, ?_, ?_⟩
      · rw [hkeep, trace, trace, List.filter_cons_of_pos (by simp [hload]), htrace]
      · rw [trace]
        refine List.forall_mem_cons.mpr ⟨fun hl ↦ ?_, hloads⟩
        rw [hload] at hl
        cases hl

end InStep

/-- A new index over a storage that lacks its key, which nobody else writes to, agrees with its log
behind every run of successful additions and other operations: loading, of the index itself or of
another new one, returns the very index, and loads in between change no answer of the run. -/
theorem load_after {s : Settings} {x : Session} (hx : x.Opens s)
    (hlacks : x.access.Lacks s.indexKey) (hread : .read ∉ x.access.refused)
    {os : List Operation} (hos : ∀ o ∈ os, o.IsUnscored) (hadds : x.Adds (withoutLoads os)) :
    (∀ i, i = (x.after (os.map .perform)).index ∨ Index.create s = .ok i →
      i.load (x.after (os.map .perform)).access =
        .ok (x.after (os.map .perform)).index.asLoaded) ∧
      (x.trace os).filter (fun r ↦ !r.1.isLoad) = x.trace (withoutLoads os) ∧
      ∀ r ∈ x.trace os, r.1.isLoad = true → r.2 = .ok .done := by
  obtain ⟨hstep, htrace, hloads⟩ := (inStep_of_opens hx hlacks hread).run hos hadds
  refine ⟨fun i hi ↦ ?_, htrace, hloads⟩
  rcases hi with rfl | hi
  · exact hstep.load_eq rfl rfl
  · rw [Index.eq_of_create hi]
    exact hstep.load_eq (Index.namespaces_after hx _).symm (Index.key_after hx _).symm

/-- An identifier that is filed three times, with text that JSON has to escape. -/
def refiling : List Operation := [
  .load,
  .add ⟨{ kind := "M", name := "a\"\n", tokens := some 3 }, [⟨"ex:a", "ex:p", "\"tab\tλ\""⟩]⟩,
  .load,
  .add ⟨{ kind := "M", name := "b", parent := some "site:/x" }, [⟨"ex:b", "type", "Message"⟩]⟩,
  .stats,
  .add ⟨{ kind := "M", name := "a\"\n" }, [⟨"ex:c", "ex:p", "\\"⟩, ⟨"ex:c", "ex:p", "\\"⟩]⟩,
  .load,
  .query ⟨some "ex:c", none, none⟩ {}]

theorem lacks_blank : blank.access.Lacks "index.jsonl" := ⟨rfl, rfl⟩

theorem load_after_refiling :
    blank.Opens {} ∧ blank.access.Lacks "index.jsonl" ∧ .read ∉ blank.access.refused ∧
      (∀ o ∈ refiling, o.IsUnscored) ∧ blank.Adds (withoutLoads refiling) ∧
      (blank.after (refiling.map .perform)).index.load
          (blank.after (refiling.map .perform)).access =
        .ok (blank.after (refiling.map .perform)).index.asLoaded ∧
      (blank.trace refiling).filter (fun r ↦ !r.1.isLoad) =
        blank.trace (withoutLoads refiling) := by
  have hos : ∀ o ∈ refiling, o.IsUnscored := by
    simp [refiling, Operation.IsUnscored]
  have hadds : blank.Adds (withoutLoads refiling) := by decide +kernel
  have hread : .read ∉ blank.access.refused := List.not_mem_nil
  obtain ⟨hload, htrace, -⟩ := load_after opens_blank lacks_blank hread hos hadds
  exact ⟨opens_blank, lacks_blank, hread, hos, hadds, hload _ (.inl rfl), htrace⟩

end Session

/-! ## Logs that somebody else has written -/

namespace Index

variable {i₀ i i' : Index} {a a' : Access} {octets : List UInt8} {u : Submission}

theorem inStep_of_load (ha : a.Reads) (hkeeps : a.storage.Keeps i₀.catalog.key octets)
    (hload : i₀.load a = .ok i) (hend : Log.endsBetweenLines octets = true) :
    Session.InStep ⟨i, a⟩ := by
  obtain ⟨es, hreplay, rfl⟩ := load_eq_ok_iff.mp hload
  rw [Catalog.replay_of_keeps ha hkeeps] at hreplay
  obtain ⟨list, hlist, rfl⟩ := map_eq_ok_iff.mp hreplay
  refine ⟨consistent_of_load hload, ha, list, .inr ⟨octets, ?_, hlist, hend⟩, ?_⟩
  · rw [rebuild_catalog]
    exact hkeeps
  · rw [rebuild_catalog]

/-- An addition to a log that is read without error leaves a log that is read without error, as what
the index has in memory, exactly if the log had ended between two lines.  Otherwise the record goes
on with the open line, and no index can be loaded from the log any more. -/
theorem load_after_add {s : Settings} (hcreate : create s = .ok i₀)
    (hcontains : a.contains s.indexKey = .ok true)
    (hread : a.read s.indexKey = .ok (some octets)) (hload : i₀.load a = .ok i)
    (hu : u.identifier.score = none) (hadd : i.add a u = (.ok (), i', a')) :
    i₀.load a' =
      if Log.endsBetweenLines octets then .ok i' else .error .serialization := by
  have ha : a.Reads :=
    ⟨Access.check_notMem_of_contains hcontains, Access.read_notMem_of_read hread⟩
  have hkey : i₀.catalog.key = s.indexKey := by rw [eq_of_create hcreate]
  obtain ⟨os, hkeeps⟩ := Storage.keeps_of_contains (ha.contains_eq.symm.trans hcontains)
  obtain rfl : os = octets := by
    have hos := hkeeps.read.symm.trans (ha.read_eq.symm.trans hread)
    exact Option.some.inj (Except.ok.inj hos)
  rw [← hkey] at hkeeps
  have hopening := opening_of_load hload
  obtain ⟨es, hreplay, hi⟩ := load_eq_ok_iff.mp hload
  have hloaded : i.catalog.loaded = true := by rw [← hi, rebuild_catalog]
  obtain ⟨j, hj, hwritten, rfl⟩ := eq_of_add hadd
  obtain rfl : i = j := Except.ok.inj ((ensureLoaded_of_loaded hloaded a).symm.trans hj)
  cases hend : Log.endsBetweenLines os with
  | true =>
    -- From here on the log is as good as one of the index's own.
    have hentered := (enter_opening i (.ofSubmission u)).trans hopening
    have hstep := (inStep_of_load ha hkeeps hload hend).add hu hadd
    rw [hstep.load_eq (congrArg Prod.fst hentered).symm (congrArg Prod.snd hentered).symm,
      asLoaded_of_loaded (by rw [enter_loaded, hloaded])]
    rfl
  | false =>
    have hnext := Storage.keeps_of_append (Access.append_eq_ok hwritten).2
    rw [show i.catalog.key = i₀.catalog.key from congrArg Prod.snd hopening, hkeeps.filed] at hnext
    rw [Catalog.replay_of_keeps ha hkeeps] at hreplay
    obtain ⟨list, hlist, -⟩ := map_eq_ok_iff.mp hreplay
    rw [load, Catalog.load, Catalog.replay_of_keeps (ha.of_append hwritten) hnext]
    change ((Except.map _ (Log.read Entry.reader (os ++ Log.octets _))).map _).map _ = _
    rw [Log.read_append hlist hu, hend]
    rfl

/-- A storage with a log of one record that no line feed ends. -/
def unterminated : Access where
  storage := .memory (Memory.put {} "index.jsonl"
    (Text.Utf8.encode (Entry.record ⟨"a.b", { kind := "a", name := "b" }, []⟩)))

/-- The log is read, the addition succeeds, and then the log is not read any more. -/
theorem load_after_add_unterminated :
    ∃ i i' a', unterminated.contains "index.jsonl" = .ok true ∧
      unterminated.read "index.jsonl" = .ok (some (Text.Utf8.encode
        (Entry.record ⟨"a.b", { kind := "a", name := "b" }, []⟩))) ∧
      Session.blank.index.load unterminated = .ok i ∧
      i.add unterminated ⟨{ kind := "a", name := "c" }, []⟩ = (.ok (), i', a') ∧
      Session.blank.index.load a' = .error .serialization := by
  have hcontains : unterminated.contains "index.jsonl" = .ok true := rfl
  have hread : unterminated.read "index.jsonl" = .ok (some (Text.Utf8.encode
      (Entry.record ⟨"a.b", { kind := "a", name := "b" }, []⟩))) := rfl
  have hrun : ((Session.blank.index.load unterminated).toOption.map fun i ↦
      (i.add unterminated ⟨{ kind := "a", name := "c" }, []⟩).1.isOk) = some true := by
    decide +kernel
  cases hload : Session.blank.index.load unterminated with
  | error e => rw [hload] at hrun; cases hrun
  | ok i =>
    rw [hload] at hrun
    obtain ⟨_, hadded⟩ := eq_ok_of_isOk (Option.some.inj hrun)
    have hadd : i.add unterminated ⟨{ kind := "a", name := "c" }, []⟩ = (.ok (), _, _) :=
      Prod.ext hadded rfl
    refine ⟨i, _, _, hcontains, hread, rfl, hadd, ?_⟩
    rw [load_after_add Session.opens_blank hcontains hread hload rfl hadd]
    exact if_neg (by decide +kernel)

end Index

end TripleIndex
