import TripleIndex.Proofs.Consistency
import Mathlib.Data.List.Chain

/-!
# Nested identifiers

An identifier names its parent by a text that a program has put together: the rendering of the
parent, perhaps behind a scheme, and perhaps with slashes that say nothing.  Rendering takes such a
text apart and puts it together again.  Along a line of identifiers, each of them the parent of the
next, this comes to the names of all of them between single slashes (`Identifier.Lineage.path_eq`).

So nothing but the names matters: not the schemes, and not how many slashes there are.  Identifiers
that differ in these are the same, and an index has one entry for them (`Index.FilesAsOne`).
-/

namespace TripleIndex

/-! ## Pieces of paths -/

theorem intercalate_append {α : Type} (mark : List α) {l m : List (List α)} (hl : l ≠ [])
    (hm : m ≠ []) :
    mark.intercalate (l ++ m) = mark.intercalate l ++ mark ++ mark.intercalate m := by
  obtain ⟨b, m, rfl⟩ := List.exists_cons_of_ne_nil hm
  induction l with
  | nil => exact (hl rfl).elim
  | cons a l ih =>
    cases l with
    | nil =>
      rw [List.singleton_append, List.intercalate_cons_cons, List.intercalate_singleton]
    | cons c l =>
      rw [List.cons_append, List.cons_append, List.intercalate_cons_cons, ← List.cons_append,
        ih (List.cons_ne_nil c l), List.intercalate_cons_cons]
      simp only [List.append_assoc]

theorem flatMap_concat_mark {α : Type} (mark : List α) {l : List (List α)} (h : l ≠ []) :
    l.flatMap (· ++ mark) = mark.intercalate l ++ mark := by
  induction l with
  | nil => exact (h rfl).elim
  | cons a l ih =>
    cases l with
    | nil => rw [List.flatMap_singleton, List.intercalate_singleton]
    | cons b l =>
      rw [List.flatMap_cons, ih (List.cons_ne_nil b l), List.intercalate_cons_cons]
      simp only [List.append_assoc]

theorem splitOn_append (as bs : List Char) :
    (as ++ '/' :: bs).splitOn '/' = as.splitOn '/' ++ bs.splitOn '/' :=
  List.splitOnP_append_cons as bs (beq_self_eq_true '/')

theorem pathSegments_append (as bs : List Char) :
    pathSegments (as ++ '/' :: bs) = pathSegments as ++ pathSegments bs := by
  rw [pathSegments, splitOn_append, List.filter_append]
  rfl

/-- A path as renderings spell it: no colon, and slashes only between names. -/
structure IsPath (cs : List Char) : Prop where
  colon : ':' ∉ cs
  names : [] ∉ cs.splitOn '/'

namespace IsPath

variable {as bs cs : List Char}

theorem append (ha : IsPath as) (hb : IsPath bs) : IsPath (as ++ '/' :: bs) where
  colon := by simp [ha.colon, hb.colon]
  names := by simp [splitOn_append, ha.names, hb.names]

/-- Taking a path apart loses nothing. -/
theorem flatMap_pathSegments (h : IsPath cs) :
    (pathSegments cs).flatMap (· ++ ['/']) = cs ++ ['/'] := by
  have hsegments : pathSegments cs = cs.splitOn '/' := by
    refine List.filter_eq_self.mpr fun s hs ↦ ?_
    cases s with
    | nil => exact absurd hs h.names
    | cons c s => rfl
  rw [hsegments, flatMap_concat_mark _ (List.splitOn_ne_nil _ _), List.intercalate_splitOn]

/-- Slashes in front, at the end and next to each other are all that an empty name can come of. -/
theorem of_slashes (hcolon : ':' ∉ cs) (hne : cs ≠ []) (hfront : cs.head? ≠ some '/')
    (hback : cs.getLast? ≠ some '/') (hdoubled : ¬ ['/', '/'] <:+: cs) : IsPath cs := by
  refine ⟨hcolon, fun hempty ↦ ?_⟩
  obtain ⟨l, m, hpieces⟩ := List.append_of_mem hempty
  have hcs : cs = ['/'].intercalate (l ++ [] :: m) := by
    rw [← hpieces, List.intercalate_splitOn]
  cases l with
  | nil =>
    cases m with
    | nil => exact hne (by simpa using hcs)
    | cons b m =>
      rw [List.nil_append, List.intercalate_cons_cons] at hcs
      exact hfront (by simp [hcs])
  | cons a l =>
    rw [intercalate_append _ (List.cons_ne_nil a l) (List.cons_ne_nil [] m)] at hcs
    cases m with
    | nil => exact hback (by simp [hcs])
    | cons b m =>
      rw [List.intercalate_cons_cons] at hcs
      exact hdoubled ⟨['/'].intercalate (a :: l), ['/'].intercalate (b :: m), by simp [hcs]⟩

end IsPath

/-- Slashes that say nothing are added to a path. -/
inductive Padded (path : List Char) : List Char → Prop where
  | refl : Padded path path
  | front {cs : List Char} (h : Padded path cs) : Padded path ('/' :: cs)
  | back {cs : List Char} (h : Padded path cs) : Padded path (cs ++ ['/'])
  | doubled {as bs : List Char} (h : Padded path (as ++ '/' :: bs)) :
      Padded path (as ++ '/' :: '/' :: bs)

namespace Padded

variable {path cs : List Char}

/-- They make no difference to the pieces. -/
theorem pathSegments_eq (h : Padded path cs) : pathSegments cs = pathSegments path := by
  have hnil : pathSegments [] = [] := rfl
  have hfront (cs : List Char) : pathSegments ('/' :: cs) = pathSegments cs := by
    rw [← List.nil_append ('/' :: cs), pathSegments_append, hnil, List.nil_append]
  induction h with
  | refl => rfl
  | front _ ih => rw [hfront, ih]
  | back _ ih => rw [pathSegments_append, hnil, List.append_nil, ih]
  | doubled _ ih => rw [pathSegments_append, hfront, ← pathSegments_append, ih]

theorem mem_iff (h : Padded path cs) {c : Char} (hc : c ≠ '/') : c ∈ cs ↔ c ∈ path := by
  induction h with
  | refl => rfl
  | front _ ih => simp [hc, ih]
  | back _ ih => simp [hc, ih]
  | doubled _ ih =>
    rw [← ih]
    simp [hc]

end Padded

/-- A colon ends the scheme in front of a text without colons. -/
theorem afterLast_append {scheme cs : List Char} (hscheme : ∀ c ∈ scheme.getLast?, c = ':')
    (hcs : ':' ∉ cs) : afterLast ':' (scheme ++ cs) = cs := by
  have hall : ∀ c ∈ cs.reverse, decide (c ≠ ':') = true := by
    intro c hc
    rw [decide_eq_true_iff]
    rintro rfl
    exact hcs (List.mem_reverse.mp hc)
  have hnone : scheme.reverse.takeWhile (· ≠ ':') = [] := by
    cases scheme using List.reverseRecOn with
    | nil => rfl
    | append_singleton scheme c =>
      obtain rfl : c = ':' := hscheme c (by simp)
      simp
  rw [afterLast, List.reverse_append, List.takeWhile_append_of_pos hall, hnone, List.append_nil,
    List.reverse_reverse]

namespace Identifier

/-! ## Parents -/

/-- An identifier refers to its parent by the path of the parent, to which slashes may have been
added, behind a scheme, which is any text that ends in a colon, or behind nothing. -/
def ChildOf (p i : Identifier) : Prop :=
  ∃ scheme cs : List Char, (∀ c ∈ scheme.getLast?, c = ':') ∧ Padded p.path cs ∧
    i.parent = some (String.ofList (scheme ++ cs))

/-- An identifier whose kind and name have no colons, and no slashes where they would be lost. -/
structure Plain (i : Identifier) : Prop where
  kind : ':' ∉ i.kind.toList
  name : ':' ∉ i.name.toList
  front : i.ownSegment.head? ≠ some '/'
  back : i.ownSegment.getLast? ≠ some '/'
  doubled : ¬ ['/', '/'] <:+: i.ownSegment

instance (i : Identifier) : Decidable i.Plain :=
  decidable_of_iff (':' ∉ i.kind.toList ∧ ':' ∉ i.name.toList ∧ i.ownSegment.head? ≠ some '/' ∧
      i.ownSegment.getLast? ≠ some '/' ∧ ¬ ['/', '/'] <:+: i.ownSegment)
    ⟨fun ⟨kind, name, front, back, doubled⟩ ↦ ⟨kind, name, front, back, doubled⟩,
      fun h ↦ ⟨h.kind, h.name, h.front, h.back, h.doubled⟩⟩

variable {a i j p : Identifier} {is js : List Identifier}

theorem point_mem_ownSegment (i : Identifier) : '.' ∈ i.ownSegment := by
  simp [ownSegment]

theorem point_mem_path (i : Identifier) : '.' ∈ i.path :=
  List.mem_append_right _ i.point_mem_ownSegment

theorem Plain.isPath (h : i.Plain) : IsPath i.ownSegment := by
  refine .of_slashes ?_ (List.ne_nil_of_mem i.point_mem_ownSegment) h.front h.back h.doubled
  simp [ownSegment, h.kind, h.name]

/-- A text with a point refers to a parent. -/
theorem parentReference_eq {cs : List Char} (hparent : i.parent = some (String.ofList cs))
    (hcs : '.' ∈ cs) : i.parentReference = some (String.ofList cs) := by
  have hne (s : String) (hs : '.' ∉ s.toList) : String.ofList cs ≠ s := by
    rintro rfl
    exact hs (by rwa [String.toList_ofList])
  rw [parentReference, hparent, Option.filter_some, if_pos]
  exact decide_eq_true ⟨hne "" (by decide), hne "undefined" (by decide)⟩

/-- Whatever scheme and slashes an identifier gives its parent, it is rendered behind it. -/
theorem ChildOf.path_eq (h : ChildOf p i) (hp : IsPath p.path) :
    i.path = p.path ++ '/' :: i.ownSegment := by
  obtain ⟨scheme, cs, hscheme, hpadded, hparent⟩ := h
  have hpoint : '.' ∈ scheme ++ cs :=
    List.mem_append_right _ ((hpadded.mem_iff (by decide)).mpr p.point_mem_path)
  have hcolon : ':' ∉ cs := fun hmem ↦ hp.colon ((hpadded.mem_iff (by decide)).mp hmem)
  have hancestors : i.ancestors = pathSegments p.path := by
    simp only [ancestors, parentReference_eq hparent hpoint]
    rw [String.toList_ofList, afterLast_append hscheme hcolon, hpadded.pathSegments_eq]
  rw [path, hancestors, hp.flatMap_pathSegments, List.append_assoc, List.singleton_append]

/-! ## Lines of identifiers -/

/-- Identifiers from an outermost one down, each of them the parent of the next. -/
structure Lineage (is : List Identifier) : Prop where
  plain : ∀ i ∈ is, i.Plain
  root : ∀ i ∈ is.head?, i.parentReference = none
  links : is.IsChain ChildOf

namespace Lineage

theorem left_of_append (h : Lineage (is ++ js)) (hne : is ≠ []) : Lineage is where
  plain i hi := h.plain i (List.mem_append_left js hi)
  root i hi := h.root i (by rwa [List.head?_append_of_ne_nil is hne])
  links := h.links.left_of_append

theorem childOf (h : Lineage (is ++ [p] ++ [i])) : ChildOf p i :=
  (List.isChain_append.mp h.links).2.2 p (by simp) i rfl

/-- The names of a line of identifiers between slashes. -/
def names (is : List Identifier) : List Char := ['/'].intercalate (is.map ownSegment)

theorem names_append (his : is ≠ []) (hjs : js ≠ []) :
    names (is ++ js) = names is ++ '/' :: names js := by
  rw [names, List.map_append, intercalate_append _ (by simpa using his) (by simpa using hjs),
    List.append_assoc, List.singleton_append]
  rfl

theorem names_singleton (i : Identifier) : names [i] = i.ownSegment := List.intercalate_singleton

/-- The last of the line is rendered as the names of all of them. -/
theorem path_eq (h : Lineage (is ++ [i])) : i.path = names (is ++ [i]) ∧ IsPath i.path := by
  induction is using List.reverseRecOn generalizing i with
  | nil =>
    have hpath : i.path = i.ownSegment := by
      have hroot : i.parentReference = none := h.root i rfl
      simp only [path, ancestors, hroot, List.flatMap_nil, List.nil_append]
    rw [List.nil_append, names_singleton, hpath]
    exact ⟨rfl, (h.plain i List.mem_cons_self).isPath⟩
  | append_singleton is p ih =>
    obtain ⟨hpath, hp⟩ := ih (h.left_of_append (by simp))
    rw [h.childOf.path_eq hp, names_append (by simp) (List.cons_ne_nil i []), ← hpath,
      names_singleton]
    exact ⟨rfl, hp.append (h.plain i (by simp)).isPath⟩

theorem rendering_eq (h : Lineage (is ++ [i])) :
    i.rendering = "/".intercalate ((is ++ [i]).map fun j ↦ j.kind ++ "." ++ j.name) := by
  have hnames : ((is ++ [i]).map fun j ↦ j.kind ++ "." ++ j.name).map String.toList =
      (is ++ [i]).map ownSegment := by
    rw [List.map_map]
    exact List.map_congr_left fun j _ ↦ by simp [ownSegment]
  refine String.toList_inj.mp ?_
  rw [rendering, h.path_eq.1, names, String.toList_ofList, String.toList_intercalate, hnames]
  rfl

/-- Lines with the same kinds and names end in the same resource. -/
theorem same (hi : Lineage (is ++ [i])) (hj : Lineage (js ++ [j]))
    (h : (is ++ [i]).map (fun k ↦ (k.kind, k.name)) = (js ++ [j]).map fun k ↦ (k.kind, k.name)) :
    i.Same j := by
  have hmap (ks : List Identifier) : ks.map (fun k ↦ k.kind ++ "." ++ k.name) =
      (ks.map fun k ↦ (k.kind, k.name)).map fun k ↦ k.1 ++ "." ++ k.2 := by
    rw [List.map_map]
    rfl
  rw [Same, hi.rendering_eq, hj.rendering_eq, hmap, hmap, h]

theorem isPrefix_path (h : Lineage (is ++ [i])) (ha : a ∈ is) : a.path ++ ['/'] <+: i.path := by
  obtain ⟨before, behind, rfl⟩ := List.append_of_mem ha
  have hline : before ++ a :: behind ++ [i] = (before ++ [a]) ++ (behind ++ [i]) := by simp
  rw [hline] at h
  refine ⟨names (behind ++ [i]), ?_⟩
  rw [(h.left_of_append (by simp)).path_eq.1, List.append_assoc, List.singleton_append,
    ← names_append (by simp) (by simp), ← hline]
  exact (path_eq (hline ▸ h)).1.symm

end Lineage

end Identifier

/-! ## One entry -/

/-- The prefix of everything below a resource. -/
def Filter.below (a : Identifier) : Filter := { pre := some (a.rendering ++ "/") }

theorem Filter.apply_below (a : Identifier) (is : List Identifier) :
    (below a).apply is = is.filter fun i ↦ (a.path ++ ['/']).isPrefixOf i.path := by
  have hprefix : (a.rendering ++ "/").toList = a.path ++ ['/'] := by
    simp [Identifier.rendering]
  rw [← hprefix]
  rfl

namespace Index

/-- Two identifiers that an index has one entry for. -/
structure FilesAsOne (x : Index) (i j : Identifier) : Prop where
  one : ∀ e ∈ x.entries, ∀ f ∈ x.entries, e.identifier.Same i → f.identifier.Same j → e = f
  /-- What is filed under the second takes the place of what has been filed under the first. -/
  replaced : ∀ {a b c : Access} {u v : List Statement} {y z : Index},
    x.add a ⟨i, u⟩ = (.ok (), y, b) → y.add b ⟨j, v⟩ = (.ok (), z, c) →
      y.catalog.entries.get? j.rendering = some ⟨i.rendering, i, u⟩ ∧
      z.catalog.entries.get? i.rendering = some ⟨j.rendering, j, v⟩ ∧
      z.entries = y.entries.map fun e ↦ if e.identifier.Same i then ⟨j.rendering, j, v⟩ else e

variable {x : Index} {i j : Identifier}

theorem loaded_of_add {y : Index} {a b : Access} {u : Submission}
    (h : x.add a u = (.ok (), y, b)) : y.catalog.loaded = true := by
  obtain ⟨k, hk, -, rfl⟩ := eq_of_add h
  rw [enter_loaded]
  exact loaded_of_ensureLoaded hk

theorem Consistent.get?_of_add (hx : x.Consistent) {y : Index} {a b : Access} {u : Submission}
    (h : x.add a u = (.ok (), y, b)) :
    y.catalog.entries.get? u.identifier.rendering = some (.ofSubmission u) := by
  obtain ⟨k, hk, -, rfl⟩ := eq_of_add h
  rw [enter_entries]
  exact (hx.ensureLoaded hk).entries.get?_put (.ofSubmission u)

theorem Consistent.filesAsOne (hx : x.Consistent) (h : i.Same j) : x.FilesAsOne i j where
  one e he f hf hei hfj := by
    refine List.inj_on_of_nodup_map hx.entries.nodup_ids he hf ?_
    rw [hx.entries.id_eq he, hx.entries.id_eq hf]
    exact (hei.trans h).trans hfj.symm
  replaced {a b c u v y z} hadd hagain := by
    have hy : y.Consistent := by
      have hconsistent : (x.add a ⟨i, u⟩).2.1.Consistent := hx.add
      rwa [hadd] at hconsistent
    have hid : i.rendering = j.rendering := h
    have hfiled : y.catalog.entries.get? i.rendering = some ⟨i.rendering, i, u⟩ :=
      hx.get?_of_add (u := ⟨i, u⟩) hadd
    have hnext : z.catalog.entries.get? j.rendering = some ⟨j.rendering, j, v⟩ :=
      hy.get?_of_add (u := ⟨j, v⟩) hagain
    have hhas : y.catalog.entries.has j.rendering = true :=
      (hy.entries.has_iff _).mpr ⟨_, (hy.entries.get?_eq_some_iff.mp hfiled).1, hid⟩
    refine ⟨by rw [← hid, hfiled], by rw [hid, hnext], ?_⟩
    obtain ⟨k, hk, -, rfl⟩ := eq_of_add hagain
    rw [ensureLoaded_of_loaded (loaded_of_add hadd)] at hk
    obtain rfl : y = k := Except.ok.inj hk
    rw [Index.entries, enter_entries, hy.entries.toList_put_of_has (e := .ofSubmission ⟨j, v⟩) hhas]
    refine List.map_congr_left fun e he ↦ ?_
    have hsame : e.id = j.rendering ↔ e.identifier.Same i := by
      rw [hy.entries.id_eq he, Identifier.Same, hid]
    exact if_congr hsame rfl rfl

end Index

namespace Identifier

/-- A nested identifier is rendered as the names down to it, so that schemes and idle slashes make
no difference to it, to its entry, or to the prefixes of its ancestors. -/
theorem Lineage.nested {is : List Identifier} {i : Identifier} (h : Lineage (is ++ [i])) :
    i.rendering = "/".intercalate ((is ++ [i]).map fun j ↦ j.kind ++ "." ++ j.name) ∧
      (∀ js j, Lineage (js ++ [j]) →
        (is ++ [i]).map (fun k ↦ (k.kind, k.name)) = (js ++ [j]).map (fun k ↦ (k.kind, k.name)) →
          i.Same j ∧ ∀ {s : Settings} {x : Session}, x.Opens s → ∀ events,
            (x.after events).index.FilesAsOne i j) ∧
      ∀ a ∈ is, ∀ before behind, (Filter.below a).apply (before ++ i :: behind) =
        (Filter.below a).apply before ++ i :: (Filter.below a).apply behind := by
  refine ⟨h.rendering_eq, fun js j hj hnames ↦ ?_, fun a ha before behind ↦ ?_⟩
  · have hsame := h.same hj hnames
    exact ⟨hsame, fun hx events ↦ (Index.consistent_after hx events).filesAsOne hsame⟩
  · have hbelow : (a.path ++ ['/']).isPrefixOf i.path = true :=
      List.isPrefixOf_iff_prefix.mpr (h.isPrefix_path ha)
    simp only [Filter.apply_below, List.filter_append, List.filter_cons, hbelow, if_true]

def talk : Identifier := { kind := "Talk", name := "c/1" }

/-- A thread of the talk. -/
def thread : Identifier := { kind := "Thread", name := "t", parent := some "Talk.c/1" }

/-- A message of the thread, which it refers to by a scheme. -/
def message : Identifier :=
  { kind := "Message", name := "m", parent := some "cld:Talk.c/1/Thread.t" }

/-- The same message, which refers to the thread with more slashes than it takes. -/
def slashedMessage : Identifier :=
  { kind := "Message", name := "m", parent := some "/Talk.c//1/Thread.t/" }

theorem lineage_message : Lineage ([talk, thread] ++ [message]) := by
  have hthread : Padded talk.path "Talk.c/1".toList := .refl
  have hmessage : Padded thread.path "Talk.c/1/Thread.t".toList := .refl
  exact ⟨by decide, by rintro _ ⟨⟩; rfl,
    .cons_cons ⟨[], _, by rintro _ ⟨⟩, hthread, by decide⟩
      (.cons_cons ⟨"cld:".toList, _, by rintro _ ⟨⟩; rfl, hmessage, by decide⟩ (.singleton _))⟩

theorem lineage_slashedMessage : Lineage ([talk, thread] ++ [slashedMessage]) := by
  have hthread : Padded talk.path "Talk.c/1".toList := .refl
  have hpath : thread.path = "Talk.c".toList ++ '/' :: "1/Thread.t".toList := by decide
  have hmessage : Padded thread.path
      ('/' :: ("Talk.c".toList ++ '/' :: '/' :: "1/Thread.t".toList) ++ ['/']) := by
    rw [hpath]
    exact .back (.front (.doubled .refl))
  exact ⟨by decide, by rintro _ ⟨⟩; rfl,
    .cons_cons ⟨[], _, by rintro _ ⟨⟩, hthread, by decide⟩
      (.cons_cons ⟨[], _, by rintro _ ⟨⟩, hmessage, by decide⟩ (.singleton _))⟩

/-- Both messages are one resource, and both are below the talk. -/
theorem Lineage.nested_message :
    Lineage ([talk, thread] ++ [message]) ∧ Lineage ([talk, thread] ++ [slashedMessage]) ∧
      message.rendering = "Talk.c/1/Thread.t/Message.m" ∧ message.Same slashedMessage ∧
      (Session.blank.after [.perform (.add ⟨message, []⟩)]).index.FilesAsOne message
        slashedMessage ∧
      (Filter.below talk).apply ([talk] ++ message :: [thread]) = [message, thread] := by
  obtain ⟨hrendering, hsame, hbelow⟩ := nested lineage_message
  obtain ⟨hsame, hfiles⟩ := hsame _ _ lineage_slashedMessage rfl
  have hnames :
      "/".intercalate (([talk, thread] ++ [message]).map fun j ↦ j.kind ++ "." ++ j.name) =
      "Talk.c/1/Thread.t/Message.m" := by decide
  refine ⟨lineage_message, lineage_slashedMessage, hrendering.trans hnames, hsame,
    hfiles Session.opens_blank _, ?_⟩
  rw [hbelow talk (by simp) [talk] [thread]]
  rfl

end Identifier

end TripleIndex
