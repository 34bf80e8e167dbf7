import TripleIndex.Files.Tree

/-! # Listings

A directory lists what it holds in an order that is the file system's own. The files below a
directory are found by listing it and, in their turn, the directories that come up.
-/

namespace TripleIndex

/-- What a directory lists: names, and what stands under them. -/
abbrev Listing := List (FileName × Node)

namespace Listing

def directories (l : Listing) : List FileName := (l.filter (·.2 = .directory)).map (·.1)

def files (l : Listing) : List FileName := (l.filter (·.2 ≠ .directory)).map (·.1)

end Listing

namespace FileTree

variable {t : FileTree} {place : Place} {name : FileName} {node : Node}

/-- A node as an entry of a directory, if it stands in it. -/
def entryOf (place : Place) (n : Place × Node) : Option (FileName × Node) :=
  match n.1.getLast? with
  | some name => if n.1 = place ++ [name] then some (name, n.2) else none
  | none => none

theorem entryOf_eq_some_iff {n : Place × Node} :
    entryOf place n = some (name, node) ↔ n = (place ++ [name], node) := by
  constructor
  · intro h
    rw [entryOf] at h
    split at h
    · split at h
      · rename_i heq
        cases h
        exact Prod.ext heq rfl
      · cases h
    · cases h
  · rintro rfl
    simp [entryOf]

/-- What stands in a directory, by name. -/
def children (t : FileTree) (place : Place) : Listing := t.nodes.toList.filterMap (entryOf place)

theorem mem_children :
    (name, node) ∈ t.children place ↔ t.node? (place ++ [name]) = some node := by
  have hnode : t.node? (place ++ [name]) = t.nodes[place ++ [name]]? := by simp [node?]
  rw [hnode, ← Std.TreeMap.mem_toList_iff_getElem?_eq_some, children, List.mem_filterMap]
  simp [entryOf_eq_some_iff]

theorem nodup_children (t : FileTree) (place : Place) :
    ((t.children place).map (·.1)).Nodup := by
  rw [List.Nodup, List.pairwise_map, children, List.pairwise_filterMap]
  refine t.nodes.distinct_keys_toList.imp ?_
  rintro n m hne ⟨name, node⟩ hn ⟨name', node'⟩ hm (rfl : name = name')
  obtain rfl := entryOf_eq_some_iff.mp hn
  obtain rfl := entryOf_eq_some_iff.mp hm
  exact hne Std.ReflCmp.compare_self

/-- A way of listing directories: each entry comes once.  The order is free, and may hang on the
directory and on what it holds. -/
structure Enumeration where
  list : Place → Listing → Listing
  perm : ∀ place l, (list place l).Perm l

namespace Enumeration

variable (e : Enumeration)

def byName : Enumeration := ⟨fun _ l ↦ l, fun _ _ ↦ .refl _⟩

/-- What is listed of a directory. -/
def entries (t : FileTree) (place : Place) : Listing := e.list place (t.children place)

/-- The directories in a directory. -/
def directories (t : FileTree) (place : Place) : List Place :=
  (e.entries t place).directories.map fun name => place ++ [name]

/-- The files in a directory. -/
def files (t : FileTree) (place : Place) : List Place :=
  (e.entries t place).files.map fun name => place ++ [name]

theorem mem_entries :
    (name, node) ∈ e.entries t place ↔ t.node? (place ++ [name]) = some node := by
  rw [entries, (e.perm place _).mem_iff, mem_children]

theorem nodup_entries (t : FileTree) (place : Place) : ((e.entries t place).map (·.1)).Nodup :=
  ((e.perm place _).map _).nodup_iff.mpr (nodup_children t place)

theorem mem_directories {p : Place} :
    p ∈ e.directories t place ↔ ∃ name, p = place ++ [name] ∧ t.node? p = some .directory := by
  simp only [directories, Listing.directories, List.mem_map, List.mem_filter, Prod.exists,
    decide_eq_true_eq]
  constructor
  · rintro ⟨_, ⟨name, node, ⟨hmem, rfl⟩, rfl⟩, rfl⟩
    exact ⟨name, rfl, e.mem_entries.mp hmem⟩
  · rintro ⟨name, rfl, h⟩
    exact ⟨name, ⟨name, .directory, ⟨e.mem_entries.mpr h, rfl⟩, rfl⟩, rfl⟩

theorem mem_files {p : Place} :
    p ∈ e.files t place ↔
      ∃ name octets, p = place ++ [name] ∧ t.node? p = some (.file octets) := by
  simp only [files, Listing.files, List.mem_map, List.mem_filter, Prod.exists, decide_eq_true_eq]
  constructor
  · rintro ⟨_, ⟨name, node, ⟨hmem, hnode⟩, rfl⟩, rfl⟩
    cases node with
    | directory => exact (hnode rfl).elim
    | file octets => exact ⟨name, octets, rfl, e.mem_entries.mp hmem⟩
  · rintro ⟨name, octets, rfl, h⟩
    exact ⟨name, ⟨name, .file octets, ⟨e.mem_entries.mpr h, by simp⟩, rfl⟩, rfl⟩

theorem nodup_map_append {names : List FileName} (h : names.Nodup) (place : Place) :
    (names.map fun name => place ++ [name]).Nodup := by
  rw [List.Nodup, List.pairwise_map]
  exact h.imp fun hne heq ↦ hne (by simpa using heq)

theorem nodup_directories (t : FileTree) (place : Place) : (e.directories t place).Nodup :=
  nodup_map_append ((List.filter_sublist.map _).nodup (e.nodup_entries t place)) place

theorem nodup_files (t : FileTree) (place : Place) : (e.files t place).Nodup :=
  nodup_map_append ((List.filter_sublist.map _).nodup (e.nodup_entries t place)) place

end Enumeration

/-! ## Files below directories

A directory that has been listed is no longer pending.  Those that have come up are below it and
apart from each other, so that they leave less to be visited. -/

/-- Where nodes stand below a place. -/
def placesBelow (t : FileTree) (place : Place) : List Place :=
  t.nodes.keys.filter fun p => place.isPrefixOf p && p ≠ place

/-- Everything that is still to be visited when directories wait to be listed. -/
def backlog (t : FileTree) (pending : List Place) : List Place :=
  pending.flatMap fun place => place :: t.placesBelow place

theorem mem_placesBelow {p : Place} :
    p ∈ t.placesBelow place ↔ p ∈ t.nodes ∧ place <+: p ∧ p ≠ place := by
  rw [placesBelow, List.mem_filter, Std.TreeMap.mem_keys, Bool.and_eq_true,
    List.isPrefixOf_iff_prefix, decide_eq_true_eq]

theorem nodup_cons_below (t : FileTree) (place : Place) :
    (place :: t.placesBelow place).Nodup := by
  refine List.nodup_cons.mpr ⟨fun h ↦ (mem_placesBelow.mp h).2.2 rfl, List.filter_sublist.nodup ?_⟩
  exact t.nodes.distinct_keys.imp fun hne heq ↦ hne (by rw [heq]; exact Std.ReflCmp.compare_self)

theorem isPrefix_of_mem {p : Place} (h : p ∈ place :: t.placesBelow place) : place <+: p := by
  rcases List.mem_cons.mp h with rfl | h
  · exact List.prefix_rfl
  · exact (mem_placesBelow.mp h).2.1

theorem nodup_backlog_directories (e : Enumeration) (t : FileTree) (place : Place) :
    (t.backlog (e.directories t place)).Nodup := by
  rw [List.Nodup, backlog, List.pairwise_flatMap]
  refine ⟨fun p _ ↦ t.nodup_cons_below p, List.Pairwise.imp_of_mem ?_ (e.nodup_directories t place)⟩
  rintro p q hp hq hne x hx _ hy rfl
  obtain ⟨n, rfl, -⟩ := e.mem_directories.mp hp
  obtain ⟨m, rfl, -⟩ := e.mem_directories.mp hq
  -- Two entries of one directory are as long as each other, so both begin the place only if equal.
  have hpre : place ++ [n] <+: place ++ [m] :=
    List.prefix_of_prefix_length_le (isPrefix_of_mem hx) (isPrefix_of_mem hy)
      (by simp)
  exact hne (hpre.eq_of_length (by simp))

theorem backlog_directories_subset (e : Enumeration) (t : FileTree) (place : Place) :
    t.backlog (e.directories t place) ⊆ t.placesBelow place := by
  intro x hx
  obtain ⟨p, hp, hx⟩ := List.mem_flatMap.mp hx
  obtain ⟨name, rfl, hnode⟩ := e.mem_directories.mp hp
  have hpre := isPrefix_of_mem hx
  refine mem_placesBelow.mpr ⟨?_, (List.prefix_append place _).trans hpre, ?_⟩
  · rcases List.mem_cons.mp hx with rfl | hx
    · rw [Std.TreeMap.mem_iff_isSome_getElem?]
      simp [node?] at hnode
      simp [hnode]
    · exact (mem_placesBelow.mp hx).1
  · rintro rfl
    exact absurd hpre.length_le (by simp)

theorem length_backlog_step (e : Enumeration) (t : FileTree) (place : Place)
    (pending : List Place) :
    (t.backlog ((e.directories t place).reverse ++ pending)).length <
      (t.backlog (place :: pending)).length := by
  have hreverse := ((e.directories t place).reverse_perm.flatMap_right
    fun place => place :: t.placesBelow place).length_eq
  have hle := (nodup_backlog_directories e t place).length_le_of_subset
    (backlog_directories_subset e t place)
  simp only [backlog, List.flatMap_append, List.flatMap_cons, List.length_append,
    List.length_cons] at hreverse hle ⊢
  omega

/-- The directories that are listed when some are pending: these and the ones below them. The last
directory that has come up is listed first. -/
def directoriesFrom (e : Enumeration) (t : FileTree) : List Place → List Place
  | [] => []
  | place :: pending =>
    place :: t.directoriesFrom e ((e.directories t place).reverse ++ pending)
termination_by pending => (t.backlog pending).length
decreasing_by exact length_backlog_step e t place pending

/-- The files in the directories that are listed. -/
def filesFrom (e : Enumeration) (t : FileTree) (pending : List Place) : List Place :=
  (t.directoriesFrom e pending).flatMap (e.files t)

theorem filesFrom_cons (e : Enumeration) (t : FileTree) (place : Place) (pending : List Place) :
    t.filesFrom e (place :: pending) =
      e.files t place ++ t.filesFrom e ((e.directories t place).reverse ++ pending) := by
  rw [filesFrom, directoriesFrom, List.flatMap_cons, filesFrom]

end FileTree

end TripleIndex
