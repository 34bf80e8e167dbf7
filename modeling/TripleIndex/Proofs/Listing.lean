import TripleIndex.Storage.Directory
import Mathlib.Data.List.Nodup
import Mathlib.Tactic.Common

/-!
# What listing directories finds

Listing the pending directories one after the other comes upon every file below them
(`FileTree.mem_filesFrom`), and upon each of them once (`FileTree.nodup_filesFrom`), in whatever
order directories are listed.  Since keys are sorted in the end, the order of the listings makes no
difference to whether a search succeeds and to the keys that it finds (`Directory.find_eq_ok_iff`).
When a search fails, the order tells which directory is named.

The invariant is that no pending directory lies below another one.  It holds of the one directory
that the traversal starts with, and the directories that come up in a listing lie below the listed
one and apart from each other.
-/

namespace TripleIndex

namespace FileTree

variable {t : FileTree} {q p : Place} {name : FileName}

/-- A file that is reached from a directory through directories. -/
inductive Below (t : FileTree) : Place → Place → Prop where
  | file {q : Place} {name : FileName} {octets : List UInt8}
      (h : t.node? (q ++ [name]) = some (.file octets)) : Below t q (q ++ [name])
  | directory {q p : Place} {name : FileName}
      (h : t.node? (q ++ [name]) = some .directory) (rest : Below t (q ++ [name]) p) : Below t q p

namespace Below

theorem append (h : t.Below q p) : ∃ ns, ns ≠ [] ∧ p = q ++ ns := by
  induction h with
  | @file q name octets h => exact ⟨[name], by simp, rfl⟩
  | @directory q p name h rest ih =>
    obtain ⟨ns, -, rfl⟩ := ih
    exact ⟨name :: ns, by simp, by simp⟩

theorem node? (h : t.Below q p) : ∃ octets, t.node? p = some (.file octets) := by
  induction h with
  | file h => exact ⟨_, h⟩
  | directory h rest ih => exact ih

/-- A file is reached when the places on the way to it are directories. -/
theorem of_directories {ns : List FileName} {octets : List UInt8} (hne : ns ≠ [])
    (hfile : t.node? (q ++ ns) = some (.file octets))
    (hway : ∀ ms, ms ≠ [] → ms <+: ns → ms ≠ ns → t.node? (q ++ ms) = some .directory) :
    t.Below q (q ++ ns) := by
  induction ns generalizing q with
  | nil => exact (hne rfl).elim
  | cons name ns ih =>
    by_cases hns : ns = []
    · subst hns
      exact .file hfile
    · have hfirst : t.node? (q ++ [name]) = some .directory := by
        refine hway [name] (by simp) ?_ ?_
        · simp
        · simpa using Ne.symm hns
      rw [List.append_cons] at hfile ⊢
      refine .directory hfirst (ih hns hfile fun ms hms hpre hneq ↦ ?_)
      rw [← List.append_cons]
      exact hway (name :: ms) (by simp) (by simpa using hpre) (by simpa using hneq)

end Below

/-! ## The traversal -/

theorem mem_filesFrom (e : Enumeration) (pending : List Place) :
    p ∈ t.filesFrom e pending ↔ ∃ q ∈ pending, t.Below q p := by
  induction pending using directoriesFrom.induct e t with
  | case1 => simp [filesFrom, directoriesFrom]
  | case2 q pending ih =>
    rw [filesFrom_cons, List.mem_append, ih, e.mem_files]
    constructor
    · rintro (⟨name, octets, rfl, h⟩ | ⟨r, hr, hbelow⟩)
      · exact ⟨q, List.mem_cons_self, .file h⟩
      · rcases List.mem_append.mp hr with hr | hr
        · obtain ⟨name, rfl, h⟩ := e.mem_directories.mp (List.mem_reverse.mp hr)
          exact ⟨q, List.mem_cons_self, .directory h hbelow⟩
        · exact ⟨r, List.mem_cons_of_mem q hr, hbelow⟩
    · rintro ⟨r, hr, hbelow⟩
      rcases List.mem_cons.mp hr with rfl | hr
      · cases hbelow with
        | file h => exact .inl ⟨_, _, rfl, h⟩
        | directory h rest =>
          refine .inr ⟨_, List.mem_append_left _ (List.mem_reverse.mpr ?_), rest⟩
          exact e.mem_directories.mpr ⟨_, rfl, h⟩
      · exact .inr ⟨r, List.mem_append_right _ hr, hbelow⟩

/-- Neither place is below the other one. -/
def Apart (p q : Place) : Prop := ¬ p <+: q ∧ ¬ q <+: p

theorem Apart.append_singleton (h : Apart q p) (name : FileName) : Apart (q ++ [name]) p := by
  refine ⟨fun hpre ↦ h.1 ((List.prefix_append q _).trans hpre), fun hpre ↦ ?_⟩
  rcases List.prefix_concat_iff.mp hpre with rfl | hpre
  · exact h.1 (List.prefix_append q _)
  · exact h.2 hpre

theorem apart_of_ne {m : FileName} (h : name ≠ m) : Apart (q ++ [name]) (q ++ [m]) := by
  constructor
  · intro hpre
    exact h (by simpa using hpre)
  · intro hpre
    exact h (Eq.symm (by simpa using hpre))

theorem pairwise_apart_step (e : Enumeration) {pending : List Place}
    (h : (q :: pending).Pairwise Apart) :
    ((e.directories t q).reverse ++ pending).Pairwise Apart := by
  obtain ⟨hq, hpending⟩ := List.pairwise_cons.mp h
  rw [List.pairwise_append]
  refine ⟨?_, hpending, ?_⟩
  · rw [List.pairwise_reverse]
    refine (e.nodup_directories t q).imp_of_mem fun {a b} ha hb hne ↦ ?_
    obtain ⟨n, rfl, -⟩ := e.mem_directories.mp ha
    obtain ⟨m, rfl, -⟩ := e.mem_directories.mp hb
    exact apart_of_ne fun heq ↦ hne (by rw [heq])
  · intro a ha b hb
    obtain ⟨n, rfl, -⟩ := e.mem_directories.mp (List.mem_reverse.mp ha)
    exact (hq b hb).append_singleton n

/-- A file is found once, since only one of the pending directories leads to it. -/
theorem nodup_filesFrom (e : Enumeration) {pending : List Place} (h : pending.Pairwise Apart) :
    (t.filesFrom e pending).Nodup := by
  induction pending using directoriesFrom.induct e t with
  | case1 => simp [filesFrom, directoriesFrom]
  | case2 q pending ih =>
    rw [filesFrom_cons, List.nodup_append]
    refine ⟨e.nodup_files t q, ih (pairwise_apart_step e h), ?_⟩
    rintro a ha b hb rfl
    obtain ⟨name, octets, rfl, hfile⟩ := e.mem_files.mp ha
    obtain ⟨r, hr, hbelow⟩ := (mem_filesFrom e _).mp hb
    obtain ⟨ns, hns, hplace⟩ := hbelow.append
    -- The file stands in the listed directory, so a pending one above it is above this one, too.
    have hpre : r <+: q := by
      obtain ⟨ms, m, rfl⟩ := List.eq_nil_or_concat ns |>.resolve_left hns
      rw [List.concat_eq_append, ← List.append_assoc] at hplace
      rw [List.append_inj_left' hplace rfl]
      exact List.prefix_append r ms
    rcases List.mem_append.mp hr with hr | hr
    · obtain ⟨m, rfl, -⟩ := e.mem_directories.mp (List.mem_reverse.mp hr)
      exact absurd hpre.length_le (by simp)
    · exact ((List.pairwise_cons.mp h).1 r hr).2 hpre

/-- Two ways of listing directories find the same files. -/
theorem filesFrom_perm (e f : Enumeration) {pending : List Place} (h : pending.Pairwise Apart) :
    (t.filesFrom e pending).Perm (t.filesFrom f pending) := by
  rw [List.perm_ext_iff_of_nodup (nodup_filesFrom e h) (nodup_filesFrom f h)]
  intro p
  rw [mem_filesFrom, mem_filesFrom]

/-! ## The directories that are listed -/

/-- Names that lead from one directory down to another one. -/
inductive Leads (t : FileTree) : Place → List FileName → Prop where
  | here (q : Place) : Leads t q []
  | down {q : Place} {name : FileName} {ns : List FileName}
      (h : t.node? (q ++ [name]) = some .directory) (rest : Leads t (q ++ [name]) ns) :
      Leads t q (name :: ns)

theorem Leads.node? {ns : List FileName} (h : t.Leads q ns) (hne : ns ≠ []) :
    t.node? (q ++ ns) = some .directory := by
  induction h with
  | here q => exact (hne rfl).elim
  | @down q name ns h rest ih =>
    by_cases hns : ns = []
    · subst hns
      exact h
    · rw [List.append_cons]
      exact ih hns

/-- The directories that are listed are the pending ones and those below them. -/
theorem mem_directoriesFrom (e : Enumeration) (pending : List Place) :
    p ∈ t.directoriesFrom e pending ↔ ∃ q ∈ pending, ∃ ns, p = q ++ ns ∧ t.Leads q ns := by
  induction pending using directoriesFrom.induct e t with
  | case1 => simp [directoriesFrom]
  | case2 q pending ih =>
    rw [directoriesFrom, List.mem_cons, ih]
    constructor
    · rintro (rfl | ⟨r, hr, ns, rfl, hns⟩)
      · exact ⟨p, List.mem_cons_self, [], by simp, .here p⟩
      · rcases List.mem_append.mp hr with hr | hr
        · obtain ⟨name, rfl, h⟩ := e.mem_directories.mp (List.mem_reverse.mp hr)
          exact ⟨q, List.mem_cons_self, name :: ns, by simp, .down h hns⟩
        · exact ⟨r, List.mem_cons_of_mem q hr, ns, rfl, hns⟩
    · rintro ⟨r, hr, ns, rfl, hns⟩
      rcases List.mem_cons.mp hr with rfl | hr
      · cases hns with
        | here => exact .inl (List.append_nil r)
        | @down _ name ns h rest =>
          refine .inr ⟨_, List.mem_append_left _ (List.mem_reverse.mpr ?_), ns, ?_, rest⟩
          · exact e.mem_directories.mpr ⟨name, rfl, h⟩
          · exact List.append_cons r name ns
      · exact .inr ⟨r, List.mem_append_right _ hr, ns, rfl, hns⟩

/-! ## Trees with the same below a place -/

section Congr

variable {u : FileTree}

theorem ordered_children (t : FileTree) (q : Place) :
    (t.children q).Pairwise fun a b ↦ compare (q ++ [a.1]) (q ++ [b.1]) = .lt := by
  rw [children, List.pairwise_filterMap]
  refine t.nodes.ordered_keys_toList.imp ?_
  rintro n m hlt ⟨name, node⟩ hn ⟨name', node'⟩ hm
  obtain rfl := entryOf_eq_some_iff.mp hn
  obtain rfl := entryOf_eq_some_iff.mp hm
  exact hlt

theorem children_congr (h : ∀ name, u.node? (q ++ [name]) = t.node? (q ++ [name])) :
    u.children q = t.children q := by
  refine List.Perm.eq_of_pairwise (fun a b _ _ hab hba ↦ ?_) (ordered_children u q)
    (ordered_children t q) ?_
  · have hgt := Std.OrientedCmp.gt_of_lt hba
    rw [hab] at hgt
    cases hgt
  · rw [List.perm_ext_iff_of_nodup (nodup_children u q).of_map (nodup_children t q).of_map]
    rintro ⟨name, node⟩
    rw [mem_children, mem_children, h]

/-- Where two trees are the same below a place, the same directories are listed there, in one
order. -/
theorem directoriesFrom_congr (e : Enumeration) {base : Place}
    (h : ∀ r, base <+: r → u.node? r = t.node? r) {pending : List Place}
    (hbelow : ∀ q ∈ pending, base <+: q) :
    u.directoriesFrom e pending = t.directoriesFrom e pending := by
  induction pending using directoriesFrom.induct e t with
  | case1 => rw [directoriesFrom, directoriesFrom]
  | case2 q pending ih =>
    have hq := hbelow q List.mem_cons_self
    have hentries : e.directories u q = e.directories t q := by
      rw [Enumeration.directories, Enumeration.directories, Enumeration.entries,
        Enumeration.entries, children_congr fun name ↦ h _ (hq.trans (List.prefix_append q _))]
    rw [directoriesFrom, directoriesFrom, hentries, ih]
    intro r hr
    rcases List.mem_append.mp hr with hr | hr
    · obtain ⟨name, rfl, -⟩ := e.mem_directories.mp (List.mem_reverse.mp hr)
      exact hq.trans (List.prefix_append q _)
    · exact hbelow r (List.mem_cons_of_mem q hr)

theorem filesFrom_congr (e : Enumeration) (h : ∀ r, q <+: r → u.node? r = t.node? r) :
    u.filesFrom e [q] = t.filesFrom e [q] := by
  rw [filesFrom, filesFrom, directoriesFrom_congr e h (by simp)]
  refine List.flatMap_congr fun r hr ↦ ?_
  obtain ⟨_, hq, ns, rfl, -⟩ := (mem_directoriesFrom e _).mp hr
  obtain rfl := List.mem_singleton.mp hq
  rw [Enumeration.files, Enumeration.files, Enumeration.entries, Enumeration.entries,
    children_congr fun name ↦ h _ ?_]
  rw [List.append_assoc]
  exact List.prefix_append _ _

end Congr

end FileTree

/-! ## Sorted keys -/

theorem pairwise_mergeSort (ks : List String) :
    (ks.mergeSort fun a b ↦ a ≤ b).Pairwise (· ≤ ·) := by
  have htrans (a b c : String) (hab : decide (a ≤ b) = true) (hbc : decide (b ≤ c) = true) :
      decide (a ≤ c) = true :=
    decide_eq_true (String.le_trans (of_decide_eq_true hab) (of_decide_eq_true hbc))
  have htotal (a b : String) : (decide (a ≤ b) || decide (b ≤ a)) = true := by
    simpa using String.le_total a b
  exact (List.pairwise_mergeSort htrans htotal ks).imp of_decide_eq_true

/-- Sorting keys gives what is in order and has the same keys. -/
theorem mergeSort_eq_of_perm {ks ls : List String} (h : ks.Perm ls) (hls : ls.Pairwise (· ≤ ·)) :
    (ks.mergeSort fun a b ↦ a ≤ b) = ls :=
  List.Perm.eq_of_pairwise (fun _ _ _ _ hab hba ↦ String.le_antisymm hab hba)
    (pairwise_mergeSort ks) hls ((List.mergeSort_perm _ _).trans h)

namespace Directory

variable {d : Directory} {place : Place} {pre : String}

/-- Every directory below a place can be listed. -/
def Listable (d : Directory) (place : Place) : Prop :=
  ∀ ns, d.files.Leads place ns → d.unlisted? ns = none

theorem findSome?_unlisted (d : Directory) (e : FileTree.Enumeration) (place : Place) :
    ((d.files.directoriesFrom e [place]).findSome?
      fun p ↦ d.unlisted? (p.drop place.length)) = none ↔ d.Listable place := by
  rw [List.findSome?_eq_none_iff]
  constructor
  · intro h ns hns
    have hmem := (FileTree.mem_directoriesFrom e [place]).mpr ⟨place, by simp, ns, rfl, hns⟩
    rw [← h _ hmem, List.drop_left]
  · intro h p hp
    obtain ⟨q, hq, ns, rfl, hns⟩ := (FileTree.mem_directoriesFrom e _).mp hp
    obtain rfl := List.mem_singleton.mp hq
    rw [List.drop_left]
    exact h ns hns

/-- A search of a root that stands and below which everything can be listed. -/
theorem find_of_listable (hnamed : d.root.text ≠ [])
    (hroot : d.files.locate d.root = .ok (.directory place)) (hlist : d.Listable place)
    (e : FileTree.Enumeration) (pre : String) :
    d.find e pre = .ok ((((d.files.filesFrom e [place]).map fun p ↦
      Path.toString (p.drop place.length)).filter fun key ↦
        pre.toList.isPrefixOf key.toList).mergeSort fun a b ↦ a ≤ b) := by
  rw [find, if_neg hnamed, hroot]
  simp only [(d.findSome?_unlisted e place).mpr hlist]

/-- Nothing is found below a root that does not stand. -/
theorem find_of_missing (h : (∃ q, d.files.locate d.root = .ok (.vacant q)) ∨
    d.files.locate d.root = .error .absent) (e : FileTree.Enumeration) (pre : String) :
    d.find e pre = .ok [] := by
  by_cases hnamed : d.root.text = []
  · rw [find, if_pos hnamed]
  · rw [find, if_neg hnamed]
    rcases h with ⟨q, hq⟩ | hq
    · simp only [hq]
    · simp only [hq]

/-- A search that fails in one order of the listings fails in any other one. -/
theorem find_ne_ok (hnamed : d.root.text ≠ [])
    (hroot : d.files.locate d.root = .ok (.directory place)) (hlist : ¬ d.Listable place)
    (e : FileTree.Enumeration) (pre : String) (ks : List String) : d.find e pre ≠ .ok ks := by
  rw [find, if_neg hnamed, hroot]
  dsimp only
  split
  · simp
  · rename_i hnone
    exact (hlist ((d.findSome?_unlisted e place).mp hnone)).elim

/-- Whether keys are found, and which, does not depend on the order in which directories are
listed. -/
theorem find_eq_ok_iff (e f : FileTree.Enumeration) {ks : List String} :
    d.find e pre = .ok ks ↔ d.find f pre = .ok ks := by
  by_cases hnamed : d.root.text = []
  · rw [find, find, if_pos hnamed, if_pos hnamed]
  · cases hroot : d.files.locate d.root with
    | error g => cases g <;> simp only [find, if_neg hnamed, hroot]
    | ok s =>
      cases s with
      | directory place =>
        by_cases hlist : d.Listable place
        · have hperm := FileTree.filesFrom_perm (t := d.files) e f (List.pairwise_singleton _ place)
          rw [find_of_listable hnamed hroot hlist, find_of_listable hnamed hroot hlist,
            mergeSort_eq_of_perm (((hperm.map _).filter _).trans (List.mergeSort_perm _ _).symm)
              (pairwise_mergeSort _)]
        · exact iff_of_false (find_ne_ok hnamed hroot hlist e pre ks)
            (find_ne_ok hnamed hroot hlist f pre ks)
      | file place octets => simp only [find, if_neg hnamed, hroot]
      | vacant place => simp only [find, if_neg hnamed, hroot]

end Directory

end TripleIndex
