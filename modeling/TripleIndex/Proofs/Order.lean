import TripleIndex.Proofs.Batch
import TripleIndex.Proofs.Query
import Mathlib.Algebra.BigOperators.Group.List.Basic
import Mathlib.Data.List.Perm.Basic

/-!
# The order of additions

Entries with different identifiers may be added in any order.  Rows, numbers of terms and the log
come out differently, but of all this the answers only depend on which entries there are
(`Index.Consistent.sameAnswers`).  What a query finds is in the order of entries, and has no other
order to be in.

Behind a reload the entries are those that have been written, read again.  Reading an entry does not
depend on its place in the log, and keeps its identifier but for the score, so the logs of two
orders are read alike: both fail, if some score cannot be read, or the entries differ in their order
only (`Index.addMany_perm`).
-/

namespace TripleIndex

/-! ## Reading entries again -/

namespace Entry

variable {e f : Entry} {es fs gs : List Entry}

/-- Reading an entry again keeps everything but the score. -/
theorem eq_of_reread (h : e.reread = .ok f) :
    f.id = e.id ∧ f.identifier.rendering = e.identifier.rendering ∧
      f.statements = e.statements := by
  obtain ⟨i, hi, rfl⟩ := map_eq_ok_iff.mp h
  refine ⟨rfl, ?_, rfl⟩
  rw [Identifier.reread] at hi
  split at hi
  · cases hi
    rfl
  · obtain ⟨y, -, rfl⟩ := map_eq_ok_iff.mp hi
    rfl

theorem exists_reread_iff :
    (∃ f, e.reread = .ok f) ↔ ∃ i, e.identifier.reread = .ok i := by
  constructor
  · rintro ⟨f, hf⟩
    obtain ⟨i, hi, -⟩ := map_eq_ok_iff.mp hf
    exact ⟨i, hi⟩
  · rintro ⟨i, hi⟩
    exact ⟨_, map_eq_ok_iff.mpr ⟨i, hi, rfl⟩⟩

/-- Every entry of a list is read again as the entry of the other list in its place. -/
abbrev Reread (es fs : List Entry) : Prop := List.Forall₂ (fun e f ↦ e.reread = .ok f) es fs

theorem Reread.map_rendering (h : Reread es fs) :
    fs.map (·.identifier.rendering) = es.map (·.identifier.rendering) := by
  induction h with
  | nil => rfl
  | cons hef _ ih => rw [List.map_cons, List.map_cons, ih, (eq_of_reread hef).2.1]

theorem Reread.flatMap_triples (h : Reread es fs) (ns : Namespaces) :
    fs.flatMap (·.triples ns) = es.flatMap (·.triples ns) := by
  induction h with
  | nil => rfl
  | @cons e f es fs hef _ ih =>
    rw [List.flatMap_cons, List.flatMap_cons, ih, triples, triples, (eq_of_reread hef).2.2]

theorem Reread.keyed (h : Reread es fs) (hes : ∀ e ∈ es, e.keyed = e) : ∀ f ∈ fs, f.keyed = f := by
  induction h with
  | nil => simp
  | @cons e f es fs hef _ ih =>
    obtain ⟨he, hes⟩ := List.forall_mem_cons.mp hes
    refine List.forall_mem_cons.mpr ⟨?_, ih hes⟩
    obtain ⟨hid, hrendering, -⟩ := eq_of_reread hef
    have hkeyed : f.id = f.identifier.rendering := by
      rw [hid, hrendering, ← keyed_id, he]
    rw [Entry.keyed, ← hkeyed]

/-- Entries in another order are read again in this order. -/
theorem Reread.exists_of_perm (h : Reread es fs) (hperm : es.Perm gs) : ∃ hs, Reread gs hs := by
  obtain ⟨hs, hread, -⟩ := List.perm_comp_forall₂ hperm.symm h
  exact ⟨hs, hread⟩

theorem Reread.perm (h : Reread es fs) {hs : List Entry} (h' : Reread gs hs)
    (hperm : es.Perm gs) : fs.Perm hs :=
  List.rel_perm_imp (fun _ _ _ hf hg ↦ Except.ok.inj (hf.symm.trans hg)) h h' hperm

end Entry

/-! ## Entries in another order -/

theorem termsOf_perm {ts us : List Triple} (h : ts.Perm us) : termsOf ts = termsOf us :=
  List.toFinset_eq_of_perm _ _ (h.flatMap_right Triple.terms)

theorem Entry.answers_congr {es fs : List Entry} (h : es.Perm fs) (ns : Namespaces) (p : Pattern)
    (e : Entry) : e.Answers ns es p ↔ e.Answers ns fs p := by
  refine exists_congr fun s ↦ and_congr_right fun _ ↦ exists_congr fun x ↦ ?_
  exact and_congr_left fun _ ↦ h.mem_iff

theorem answersOf_perm {es fs : List Entry} (h : es.Perm fs) (ns : Namespaces) (p : Pattern) :
    (answersOf ns es p).Perm (answersOf ns fs p) := by
  have hfilter : es.filter (fun e ↦ e.Answers ns es p) = es.filter fun e ↦ e.Answers ns fs p :=
    List.filter_congr fun e _ ↦ decide_eq_decide.mpr (e.answers_congr h ns p)
  rw [answersOf, answersOf, hfilter]
  exact (h.filter _).map _

theorem Filter.apply_default (is : List Identifier) : Filter.apply {} is = is := rfl

namespace Index

variable {x y j k : Index} {a b : Access}

/-- Two indexes, each with its access to a storage, answer alike.  Only the order of what a query
finds may be another one. -/
structure SameAnswers (x : Index) (a : Access) (y : Index) (b : Access) : Prop where
  query : ∀ p, ∃ found others, (x.query a p {}).1 = .ok found ∧ (y.query b p {}).1 = .ok others ∧
    found.Perm others
  has : ∀ id, ∃ flag, (x.has a id).1 = .ok flag ∧ (y.has b id).1 = .ok flag
  get : ∀ id, ∃ e, (x.get? a id).1 = .ok e ∧ (y.get? b id).1 = .ok e
  stats : ∃ s, (x.stats a).1 = .ok s ∧ (y.stats b).1 = .ok s

theorem ask_of_ensureLoaded {α : Type} (h : x.ensureLoaded a = .ok j) (answer : Index → α) :
    (x.ask a answer).1 = .ok (answer j) := by
  rw [ask, h]

theorem triples_perm (hns : k.namespaces = j.namespaces) (h : j.entries.Perm k.entries) :
    j.triples.Perm k.triples := by
  rw [triples, triples, hns]
  exact h.flatMap_right _

theorem Consistent.has_eq (hj : j.Consistent) (hk : k.Consistent) (h : j.entries.Perm k.entries)
    (id : String) : j.catalog.entries.has id = k.catalog.entries.has id := by
  rw [Bool.eq_iff_iff, hj.entries.has_iff, hk.entries.has_iff]
  exact exists_congr fun e ↦ and_congr_left fun _ ↦ h.mem_iff

theorem Consistent.get?_eq (hj : j.Consistent) (hk : k.Consistent) (h : j.entries.Perm k.entries)
    (id : String) : j.catalog.entries.get? id = k.catalog.entries.get? id := by
  refine Option.ext fun e ↦ ?_
  rw [hj.entries.get?_eq_some_iff, hk.entries.get?_eq_some_iff]
  exact and_congr_left fun _ ↦ h.mem_iff

theorem Consistent.sizes_eq (hj : j.Consistent) (hk : k.Consistent)
    (hns : k.namespaces = j.namespaces) (h : j.entries.Perm k.entries) : j.sizes = k.sizes := by
  have htriples := triples_perm hns h
  have hentries : j.catalog.entries.size = k.catalog.entries.size := h.length_eq
  rw [sizes, sizes, hentries, hj.holds.size_eq, hk.holds.size_eq, htriples.length_eq,
    hj.holds.termCount_eq, hk.holds.termCount_eq, termsOf_perm htriples]

/-- Once they are loaded, indexes answer alike if they have the same entries. -/
theorem Consistent.sameAnswers (hx : x.ensureLoaded a = .ok j) (hy : y.ensureLoaded b = .ok k)
    (hj : j.Consistent) (hk : k.Consistent) (hns : k.namespaces = j.namespaces)
    (h : j.entries.Perm k.entries) (hcard : (termsOf j.triples).card ≤ Dictionary.capacity) :
    x.SameAnswers a y b where
  query p := by
    refine ⟨_, _, ask_of_ensureLoaded hx _, ask_of_ensureLoaded hy _, ?_⟩
    have hcard' : (termsOf k.triples).card ≤ Dictionary.capacity := by
      rwa [← termsOf_perm (triples_perm hns h)]
    rw [hj.matching_eq hcard, hk.matching_eq hcard', Filter.apply_default, Filter.apply_default,
      hns]
    exact answersOf_perm h _ p
  has id := by
    refine ⟨_, ask_of_ensureLoaded hx _, ?_⟩
    rw [hj.has_eq hk h id]
    exact ask_of_ensureLoaded hy _
  get id := by
    refine ⟨_, ask_of_ensureLoaded hx _, ?_⟩
    rw [hj.get?_eq hk h id]
    exact ask_of_ensureLoaded hy _
  stats := by
    refine ⟨_, ask_of_ensureLoaded hx _, ?_⟩
    rw [hj.sizes_eq hk hns h]
    exact ask_of_ensureLoaded hy _

/-! ## Additions in another order -/

theorem toList_ofList_of_nodup {es : List Entry} (hkeyed : ∀ e ∈ es, e.keyed = e)
    (hnodup : (es.map (·.identifier.rendering)).Nodup) : (Entries.ofList es).toList = es := by
  rw [Entries.toList_ofList, Entry.newest_of_nodup hnodup]
  exact (List.map_congr_left hkeyed).trans (List.map_id _)

theorem load_eq_ok_iff_reread {es : List Entry}
    (hwrites : a.Writes x.catalog.key (es.flatMap Log.octets)) (hreads : a.Reads) :
    x.load a = .ok j ↔ ∃ fs, Entry.Reread es fs ∧ x.loadedWith fs = j := by
  simp only [load_eq_of_writes hwrites hreads, map_eq_ok_iff, Log.read_flatMap_octets_iff]

theorem isOk_load_iff_reread {es : List Entry}
    (hwrites : a.Writes x.catalog.key (es.flatMap Log.octets)) (hreads : a.Reads) :
    (x.load a).isOk = true ↔ ∃ fs, Entry.Reread es fs := by
  constructor
  · intro h
    obtain ⟨j, hj⟩ := eq_ok_of_isOk h
    obtain ⟨fs, hfs, -⟩ := (load_eq_ok_iff_reread hwrites hreads).mp hj
    exact ⟨fs, hfs⟩
  · rintro ⟨fs, hfs⟩
    rw [(load_eq_ok_iff_reread hwrites hreads).mpr ⟨fs, hfs, rfl⟩]
    rfl

/-- The log of entries with different identifiers is loaded as these entries, read again. -/
theorem entries_of_load {es : List Entry} (hkeyed : ∀ e ∈ es, e.keyed = e)
    (hnodup : (es.map (·.identifier.rendering)).Nodup)
    (hwrites : a.Writes x.catalog.key (es.flatMap Log.octets)) (hreads : a.Reads)
    (h : x.load a = .ok j) : Entry.Reread es j.entries ∧ j.catalog.loaded = true := by
  obtain ⟨fs, hfs, rfl⟩ := (load_eq_ok_iff_reread hwrites hreads).mp h
  refine ⟨?_, loaded_loadedWith x fs⟩
  rw [entries, loadedWith_entries, toList_ofList_of_nodup (hfs.keyed hkeyed)]
  · exact hfs
  · rwa [hfs.map_rendering]

/-- Logs of the same entries in two orders are both loaded or both not, and what is loaded from
them answers alike. -/
theorem sameAnswers_of_load {es fs : List Entry} (hperm : es.Perm fs)
    (hkeyed : ∀ e ∈ es, e.keyed = e) (hnodup : (es.map (·.identifier.rendering)).Nodup)
    (hcard : (termsOf (es.flatMap (·.triples x.namespaces))).card ≤ Dictionary.capacity)
    (hopening : y.opening = x.opening) (ha : a.Reads) (hb : b.Reads)
    (hx : a.Writes x.catalog.key (es.flatMap Log.octets))
    (hy : b.Writes y.catalog.key (fs.flatMap Log.octets)) :
    (x.load a).isOk = (y.load b).isOk ∧
      ∀ j k, x.load a = .ok j → y.load b = .ok k → j.SameAnswers a k b := by
  constructor
  · rw [Bool.eq_iff_iff, isOk_load_iff_reread hx ha, isOk_load_iff_reread hy hb]
    constructor
    · rintro ⟨gs, hgs⟩
      exact hgs.exists_of_perm hperm
    · rintro ⟨gs, hgs⟩
      exact hgs.exists_of_perm hperm.symm
  · intro j k hj hk
    have hkeyed' : ∀ e ∈ fs, e.keyed = e := fun e he ↦ hkeyed e (hperm.mem_iff.mpr he)
    have hnodup' : (fs.map (·.identifier.rendering)).Nodup := (hperm.map _).nodup_iff.mp hnodup
    obtain ⟨hentries, hloaded⟩ := entries_of_load hkeyed hnodup hx ha hj
    obtain ⟨hentries', hloaded'⟩ := entries_of_load hkeyed' hnodup' hy hb hk
    have hns : j.namespaces = x.namespaces := congrArg Prod.fst (opening_of_load hj)
    have hns' : k.namespaces = j.namespaces :=
      (congrArg Prod.fst ((opening_of_load hk).trans hopening)).trans hns.symm
    refine Consistent.sameAnswers (ensureLoaded_of_loaded hloaded a)
      (ensureLoaded_of_loaded hloaded' b) (consistent_of_load hj) (consistent_of_load hk) hns'
      (hentries.perm hentries' hperm) ?_
    rwa [triples, hns, hentries.flatMap_triples]

/-- What is about to be added, as entries. -/
theorem flatMap_triples_ofSubmission (ns : Namespaces) (us : List Submission) :
    (us.map Entry.ofSubmission).flatMap (·.triples ns) =
      us.flatMap fun u ↦ u.statements.map ns.triple := by
  rw [List.flatMap_map]
  rfl

variable {s : Settings} {i : Index} {us vs : List Submission}

theorem opening_of_create (hi : create s = .ok i) : i.opening = (s.namespaces, s.indexKey) := by
  rw [eq_of_create hi]
  rfl

/-- Additions to a new index lead to an index of the new entries, and to a log of them. -/
theorem exists_addMany_of_create (hi : create s = .ok i) (hreads : a.Reads)
    (hwrites : a.Writes s.indexKey []) (hdistinct : (us.map (·.identifier.rendering)).Nodup) :
    ∃ x b p, i.addMany a us = (.ok (), x, b) ∧ x.opening = i.opening ∧ b.Reads ∧
      b.Writes s.indexKey ((us.map Entry.ofSubmission).flatMap Log.octets) ∧
      x.ensureLoaded b = .ok p ∧ p.Consistent ∧ p.namespaces = s.namespaces ∧
      p.entries = us.map Entry.ofSubmission := by
  have hopening := opening_of_create hi
  have hkey : i.catalog.key = s.indexKey := congrArg Prod.snd hopening
  have hfresh : i.catalog.loaded = false := by rw [eq_of_create hi]
  rw [← hkey] at hwrites
  have hempty : i.ensureLoaded a = .ok (i.loadedWith []) := by
    rw [ensureLoaded_of_not_loaded hfresh, load_eq_of_writes hwrites hreads]
    rfl
  obtain ⟨x, b, p, hx, hb, hlog, hp, hconsistent, hpopening, hentries⟩ :=
    exists_addMany hempty (consistent_loadedWith i []) hwrites hreads us
  refine ⟨x, b, p, hx, ?_, hb, ?_, hp, hconsistent, ?_, ?_⟩
  · rw [← addMany_opening i a us, hx]
  · rwa [List.nil_append, hkey] at hlog
  · exact congrArg Prod.fst (hpopening.trans hopening)
  · rw [loadedWith_entries] at hentries
    rw [entries, hentries]
    refine toList_ofList_of_nodup (fun e ↦ Entry.keyed_of_mem_map_ofSubmission) ?_
    rwa [List.map_map]

/-- Submissions with different identifiers may be added to a new index in any order.  Up to the
order of what a query finds the answers are the same, before and behind a reload. -/
theorem addMany_perm (hi : create s = .ok i) (hreads : a.Reads) (hwrites : a.Writes s.indexKey [])
    (hperm : us.Perm vs) (hdistinct : (us.map (·.identifier.rendering)).Nodup)
    (hcard : (termsOf (us.flatMap fun u ↦ u.statements.map s.namespaces.triple)).card ≤
      Dictionary.capacity) :
    ∃ x b y c, i.addMany a us = (.ok (), x, b) ∧ i.addMany a vs = (.ok (), y, c) ∧
      x.SameAnswers b y c ∧
      ∀ j k, j = x ∨ j = i → k = y ∨ k = i →
        (j.load b).isOk = (k.load c).isOk ∧
        (∀ j' k', j.load b = .ok j' → k.load c = .ok k' → j'.SameAnswers b k' c) ∧
        ((∀ u ∈ us, ∃ r, u.identifier.reread = .ok r) → (j.load b).isOk = true) := by
  have hdistinct' : (vs.map (·.identifier.rendering)).Nodup := (hperm.map _).nodup_iff.mp hdistinct
  obtain ⟨x, b, p, hx, hxopening, hb, hlog, hp, hpc, hpns, hpentries⟩ :=
    exists_addMany_of_create hi hreads hwrites hdistinct
  obtain ⟨y, c, q, hy, hyopening, hc, hlog', hq, hqc, hqns, hqentries⟩ :=
    exists_addMany_of_create hi hreads hwrites hdistinct'
  have hentries : (us.map Entry.ofSubmission).Perm (vs.map Entry.ofSubmission) := hperm.map _
  rw [← flatMap_triples_ofSubmission] at hcard
  refine ⟨x, b, y, c, hx, hy, ?added, fun j k hj hk ↦ ?reloaded⟩
  case added =>
    refine Consistent.sameAnswers hp hq hpc hqc (hqns.trans hpns.symm) ?_ ?_
    · rwa [hpentries, hqentries]
    · rwa [triples, hpns, hpentries]
  case reloaded =>
    have hj' : j.opening = (s.namespaces, s.indexKey) := by
      rcases hj with rfl | rfl
      · exact hxopening.trans (opening_of_create hi)
      · exact opening_of_create hi
    have hk' : k.opening = j.opening := by
      rw [hj']
      rcases hk with rfl | rfl
      · exact hyopening.trans (opening_of_create hi)
      · exact opening_of_create hi
    have hkey : j.catalog.key = s.indexKey := congrArg Prod.snd hj'
    have hkey' : k.catalog.key = s.indexKey := (congrArg Prod.snd hk').trans hkey
    rw [← hkey] at hlog
    rw [← hkey'] at hlog'
    have hnodup : ((us.map Entry.ofSubmission).map (·.identifier.rendering)).Nodup := by
      rwa [List.map_map]
    rw [← show j.namespaces = s.namespaces from congrArg Prod.fst hj'] at hcard
    obtain ⟨hisOk, hsame⟩ := sameAnswers_of_load hentries
      (fun e ↦ Entry.keyed_of_mem_map_ofSubmission) hnodup hcard hk' hb hc hlog hlog'
    refine ⟨hisOk, hsame, fun hlegible ↦ ?_⟩
    rw [isOk_load_iff_reread hlog hb, exists_forall₂_iff]
    intro e he
    obtain ⟨u, hu, rfl⟩ := List.mem_map.mp he
    exact Entry.exists_reread_iff.mpr (hlegible u hu)

/-- The second of these is found by its first triple, and by the subject that it shares with the
first one. -/
def sharing : List Submission := [
  ⟨{ kind := "M", name := "a" }, [⟨"ex:s", "type", "Message"⟩]⟩,
  ⟨{ kind := "M", name := "b", parent := some "M.a", tokens := some 7 },
    [⟨"ex:t", "ex:p", "1"⟩, ⟨"ex:s", "ex:p", "\"1\""⟩]⟩]

/-- A directory that does not exist yet. -/
def unmade : Access := { storage := .directory ⟨{}, Path.ofString "data/graphs"⟩ }

theorem writes_unmade : unmade.Writes "index.jsonl" [] := by
  have hclosed : FileTree.Closed {} := fun q name h ↦ by simp [FileTree.node?] at h
  have hfresh : Directory.Fresh ⟨{}, Path.ofString "data/graphs"⟩ :=
    Directory.fresh_of_missing hclosed (by decide +kernel) (by decide +kernel)
      (.inl (by decide +kernel))
  exact ⟨List.not_mem_nil, hfresh.stores (by decide +kernel)⟩

theorem addMany_perm_sharing :
    create {} = .ok Session.blank.index ∧ unmade.Reads ∧ unmade.Writes "index.jsonl" [] ∧
      sharing.Perm sharing.reverse ∧ (sharing.map (·.identifier.rendering)).Nodup ∧
      (termsOf (sharing.flatMap fun u ↦ u.statements.map Namespaces.standard.triple)).card ≤
        Dictionary.capacity ∧
      ∃ x b y c, Session.blank.index.addMany unmade sharing = (.ok (), x, b) ∧
        Session.blank.index.addMany unmade sharing.reverse = (.ok (), y, c) ∧
        x.SameAnswers b y c ∧
        ∃ j k, x.load b = .ok j ∧ Session.blank.index.load c = .ok k ∧ j.SameAnswers b k c := by
  have hreads : unmade.Reads := ⟨List.not_mem_nil, List.not_mem_nil⟩
  have hperm : sharing.Perm sharing.reverse := (List.reverse_perm sharing).symm
  have hdistinct : (sharing.map (·.identifier.rendering)).Nodup := by decide +kernel
  have hcard : (termsOf (sharing.flatMap fun u ↦
      u.statements.map Namespaces.standard.triple)).card ≤ Dictionary.capacity := by
    decide +kernel
  have hlegible : ∀ u ∈ sharing, ∃ r, u.identifier.reread = .ok r := by
    intro u hu
    have hscore : u.identifier.score = none := by
      simp only [sharing, List.mem_cons, List.not_mem_nil, or_false] at hu
      rcases hu with rfl | rfl
      · rfl
      · rfl
    exact ⟨_, Identifier.reread_of_none hscore⟩
  obtain ⟨x, b, y, c, hx, hy, hsame, hreload⟩ :=
    addMany_perm Session.opens_blank hreads writes_unmade hperm hdistinct hcard
  obtain ⟨hisOk, hloaded, hlegibly⟩ := hreload x Session.blank.index (.inl rfl) (.inr rfl)
  obtain ⟨j, hj⟩ := eq_ok_of_isOk (hlegibly hlegible)
  obtain ⟨k, hk⟩ := eq_ok_of_isOk (hisOk ▸ hlegibly hlegible)
  exact ⟨Session.opens_blank, hreads, writes_unmade, hperm, hdistinct, hcard, x, b, y, c, hx, hy,
    hsame, j, k, hj, hk, hloaded j k hj hk⟩

end Index

end TripleIndex
