import TripleIndex.Proofs.Files
import TripleIndex.Proofs.Listing

/-!
# Directories that mirror memories

A directory mirrors a memory when below its root there are the files of the memory's keys, the
directories on the way to them and nothing else (`FileTree.Mirrors`).  The root itself may be
missing as long as the memory has no keys; the tree is looked at as it will be when the root has
been created (`Directory.Mirrors`), since the first key to be filed creates it.

Of a key that fits and that neither leads through a file of the memory nor is on the way to one,
directory and memory say the same, and filing octets under it keeps the two in step.
-/

namespace TripleIndex

/-! ## What a memory has -/

namespace Memory

variable {m : Memory} {key : String} {octets : List UInt8}

theorem contains_eq (m : Memory) (key : String) : m.contains key = (m.read key).isSome :=
  Std.TreeMap.contains_eq_isSome_getElem?

theorem exists_read_put {k : String} :
    (∃ os, (m.put key octets).read k = some os) ↔ k = key ∨ ∃ os, m.read k = some os := by
  rw [read_put]
  by_cases hk : key = k
  · simp [hk]
  · simp [hk, Ne.symm hk]

theorem mem_keys_iff : key ∈ m.cells.keys ↔ ∃ octets, m.read key = some octets := by
  rw [Std.TreeMap.mem_keys, Std.TreeMap.mem_iff_isSome_getElem?, Option.isSome_iff_exists]
  rfl

theorem mem_find_iff {pre : String} :
    key ∈ m.find pre ↔ (∃ octets, m.read key = some octets) ∧ pre.toList <+: key.toList := by
  rw [find, List.mem_filter, mem_keys_iff, List.isPrefixOf_iff_prefix]

theorem pairwise_keys (m : Memory) : m.cells.keys.Pairwise (· < ·) :=
  m.cells.ordered_keys.imp fun h ↦ compareOfLessAndEq_eq_lt.mp h

theorem pairwise_find (m : Memory) (pre : String) : (m.find pre).Pairwise (· < ·) :=
  m.pairwise_keys.filter _

/-- The keys of a memory in any order give what it finds, once they are sorted. -/
theorem mergeSort_filter {ks : List String} (h : ks.Perm m.cells.keys) (pre : String) :
    (ks.filter fun key ↦ pre.toList.isPrefixOf key.toList).mergeSort (fun a b ↦ a ≤ b) =
      m.find pre :=
  mergeSort_eq_of_perm (h.filter _) ((m.pairwise_find pre).imp Std.le_of_lt)

theorem find_eq_nil (h : ∀ key, m.read key = none) (pre : String) : m.find pre = [] := by
  rw [List.eq_nil_iff_forall_not_mem]
  intro key hkey
  obtain ⟨⟨octets, hread⟩, -⟩ := mem_find_iff.mp hkey
  rw [h key] at hread
  cases hread

/-- The key is on the way to no other key of the memory, and no other key is on the way to it. -/
def Separate (m : Memory) (key : String) : Prop :=
  ∀ k octets, m.read k = some octets →
    (Path.ofString k <+: Path.ofString key → k = key) ∧
      (Path.ofString key <+: Path.ofString k → k = key)

end Memory

/-! ## Trees -/

namespace FileTree

/-- Below a place there are the files of a memory, the directories on the way to them and nothing
else. -/
structure Mirrors (t : FileTree) (base : Place) (m : Memory) : Prop where
  file : ∀ ns octets, ns ≠ [] → (t.node? (base ++ ns) = some (.file octets) ↔
    ∃ key, Path.ofString key = ns ∧ m.read key = some octets)
  directory : ∀ ns, ns ≠ [] → (t.node? (base ++ ns) = some .directory ↔
    ∃ key, (∃ octets, m.read key = some octets) ∧
      ns <+: Path.ofString key ∧ ns ≠ Path.ofString key)

namespace Mirrors

variable {t : FileTree} {base : Place} {m : Memory} {key : String} {ns : Path} {name : FileName}

/-- Where nothing stands below a place, the memory is empty. -/
theorem of_bare (h : t.Bare base) : t.Mirrors base {} where
  file ns octets hns := by simp [h ns hns, Memory.read]
  directory ns hns := by simp [h ns hns, Memory.read]

theorem eq_of_file (hm : t.Mirrors base m) (hsep : m.Separate key) {octets : List UInt8}
    (hns : ns ≠ []) (hpre : ns <+: Path.ofString key)
    (h : t.node? (base ++ ns) = some (.file octets)) :
    ns = Path.ofString key ∧ m.read key = some octets := by
  obtain ⟨k, rfl, hread⟩ := (hm.file ns octets hns).mp h
  obtain rfl := (hsep k octets hread).1 hpre
  exact ⟨rfl, hread⟩

theorem not_directory (hm : t.Mirrors base m) (hsep : m.Separate key) :
    t.node? (base ++ Path.ofString key) ≠ some .directory := by
  intro h
  obtain ⟨k, ⟨octets, hread⟩, hpre, hne⟩ := (hm.directory _ (Path.ofString_ne_nil key)).mp h
  exact hne (by rw [(hsep k octets hread).2 hpre])

theorem node?_key (hm : t.Mirrors base m) (hsep : m.Separate key) :
    t.node? (base ++ Path.ofString key) = (m.read key).map .file := by
  cases hread : m.read key with
  | some octets => exact (hm.file _ octets (Path.ofString_ne_nil key)).mpr ⟨key, rfl, hread⟩
  | none =>
    cases hnode : t.node? (base ++ Path.ofString key) with
    | none => rfl
    | some n =>
      cases n with
      | directory => exact (hm.not_directory hsep hnode).elim
      | file octets =>
        have hsome := (hm.eq_of_file hsep (Path.ofString_ne_nil key) List.prefix_rfl hnode).2
        rw [hread] at hsome
        cases hsome

/-- No file stands in the way to a key. -/
theorem not_file (hm : t.Mirrors base m) (hsep : m.Separate key)
    (hkey : Path.ofString key = ns ++ [name]) {ms : Path} (octets : List UInt8) (hms : ms ≠ [])
    (hpre : ms <+: ns) : t.node? (base ++ ms) ≠ some (.file octets) := by
  intro h
  have hpre' : ms <+: Path.ofString key := hkey ▸ hpre.trans (List.prefix_append ns _)
  have heq := (hm.eq_of_file hsep hms hpre' h).1
  have hlen := hpre.length_le
  rw [heq, hkey] at hlen
  exact absurd hlen (by simp)

/-- A key of the memory leads to its file. -/
theorem walk_of_read (hm : t.Mirrors base m) {octets : List UInt8}
    (hplain : ∀ name ∈ Path.ofString key, Path.Plain name) (hread : m.read key = some octets) :
    t.walk base (Path.ofString key) = .ok (.file (base ++ Path.ofString key) octets) := by
  have hfile := (hm.file _ octets (Path.ofString_ne_nil key)).mpr ⟨key, rfl, hread⟩
  obtain ⟨ns, name, hkey⟩ := List.eq_nil_or_concat _ |>.resolve_left (Path.ofString_ne_nil key)
  rw [List.concat_eq_append] at hkey
  rw [hkey] at hfile hplain ⊢
  rw [walk_plain_concat hplain, hfile, Spot.ofNode]
  intro ms hms hpre
  refine (hm.directory ms hms).mpr ⟨key, ⟨octets, hread⟩, ?_, ?_⟩
  · rw [hkey]
    exact hpre.trans (List.prefix_append _ _)
  · rintro rfl
    rw [hkey] at hpre
    exact absurd hpre.length_le (by simp)

/-- A key that the memory does not have leads to nothing. -/
theorem walk_of_read_eq_none (hm : t.Mirrors base m) (hsep : m.Separate key)
    (hplain : ∀ name ∈ Path.ofString key, Path.Plain name) (hread : m.read key = none) :
    (∃ s, t.walk base (Path.ofString key) = .ok (.vacant s)) ∨
      t.walk base (Path.ofString key) = .error .absent := by
  refine walk_plain_missing hplain (Path.ofString_ne_nil key) ?_ (hm.not_directory hsep)
  intro ms octets hms hpre h
  have hsome := (hm.eq_of_file hsep hms hpre h).2
  rw [hread] at hsome
  cases hsome

/-! ### Filing octets -/

section Filing

variable (hm : t.Mirrors base m) (hsep : m.Separate key)
  (hplain : ∀ name ∈ Path.ofString key, Path.Plain name) (hkey : Path.ofString key = ns ++ [name])
include hm hsep hplain hkey

theorem createFrom_ok : (t.createFrom base ns).1 = .ok () := by
  refine createFrom_plain_ok (Path.plain_of_append (hkey ▸ hplain)) ?_
  exact fun ms octets hms hpre ↦ hm.not_file hsep hkey octets hms hpre

theorem node?_createFrom_key :
    (t.createFrom base ns).2.node? (base ++ Path.ofString key) = (m.read key).map .file := by
  rw [← hm.node?_key hsep]
  refine node?_createFrom_of_ne (Path.plain_of_append (hkey ▸ hplain)) fun ms hms hpre heq ↦ ?_
  rw [List.append_cancel_left_eq, hkey] at heq
  rw [← heq] at hpre
  exact absurd hpre.length_le (by simp)

/-- When the directories on the way have been created, the key leads to its file or to a free
place. -/
theorem walk_createFrom_key :
    (t.createFrom base ns).2.walk base (Path.ofString key) =
      .ok (.ofNode (base ++ Path.ofString key) ((m.read key).map .file)) := by
  have hns := Path.plain_of_append (hkey ▸ hplain)
  have hok := hm.createFrom_ok hsep hplain hkey
  rw [← hm.node?_createFrom_key hsep hplain hkey]
  rw [hkey] at hplain ⊢
  exact walk_plain_concat hplain fun ms hms hpre ↦ node?_createFrom_plain hns hok hms hpre

/-- The directories that are created are those on the way to the key. -/
theorem directory_createFrom {ms : Path} (hms : ms ≠ []) :
    (t.createFrom base ns).2.node? (base ++ ms) = some .directory ↔
      ms <+: ns ∨ t.node? (base ++ ms) = some .directory := by
  have hns := Path.plain_of_append (hkey ▸ hplain)
  constructor
  · intro h
    by_cases hpre : ms <+: ns
    · exact .inl hpre
    · refine .inr ?_
      rw [← h, node?_createFrom_of_ne hns]
      rintro ls - hls heq
      rw [List.append_cancel_left_eq] at heq
      exact hpre (heq ▸ hls)
  · rintro (hpre | h)
    · exact node?_createFrom_plain hns (hm.createFrom_ok hsep hplain hkey) hms hpre
    · exact node?_createFrom_of_directory h _ _

/-- A file put at the end of the way mirrors the memory with the new octets under the key. -/
theorem put (octets : List UInt8) :
    ((t.createFrom base ns).2.set (base ++ Path.ofString key) (.file octets)).Mirrors base
      (m.put key octets) := by
  have hne : base ++ Path.ofString key ≠ [] := by simp [Path.ofString_ne_nil]
  constructor
  · intro ms os hms
    rw [node?_set _ _ _ _ hne]
    by_cases heq : Path.ofString key = ms
    · subst heq
      rw [if_pos rfl]
      constructor
      · intro h
        cases h
        exact ⟨key, rfl, by rw [Memory.read_put, if_pos rfl]⟩
      · rintro ⟨k, hk, hread⟩
        obtain rfl := Path.ofString_injective hk
        rw [Memory.read_put, if_pos rfl] at hread
        cases hread
        rfl
    · rw [if_neg (by simpa using heq), node?_createFrom, hm.file ms os hms]
      refine exists_congr fun k ↦ and_congr_right fun hk ↦ ?_
      rw [Memory.read_put, if_neg]
      rintro rfl
      exact heq hk
  · intro ms hms
    rw [node?_set _ _ _ _ hne]
    simp only [Memory.exists_read_put, or_and_right, exists_or, exists_eq_left]
    rw [← hm.directory ms hms]
    by_cases heq : Path.ofString key = ms
    · subst heq
      simp [hm.not_directory hsep]
    · rw [if_neg (by simpa using heq), hm.directory_createFrom hsep hplain hkey hms, hkey,
        List.prefix_concat_iff]
      rw [hkey] at heq
      simp [Ne.symm heq]

end Filing

end Mirrors

end FileTree

/-! ## Directories -/

theorem isValidKey_iff {key : String} : isValidKey key = true ↔
    (∃ name rest, Path.ofString key = name :: rest ∧ name ≠ []) ∧
      ∀ name ∈ Path.ofString key, Path.isUp name = false := by
  rw [isValidKey]
  cases hkey : Path.ofString key with
  | nil => simp
  | cons name rest => simp

/-- A key that names a file below a root: its names are plain, and the whole path can be looked
up. -/
structure Path.Fits (root : Path) (key : String) : Prop where
  plain : ∀ name ∈ Path.ofString key, Path.Plain name
  fault : (root.join (Path.ofString key)).fault? = none

instance (root : Path) : DecidablePred root.Fits := fun key ↦
  decidable_of_iff ((∀ name ∈ Path.ofString key, Path.Plain name) ∧
      (root.join (Path.ofString key)).fault? = none)
    ⟨fun h ↦ ⟨h.1, h.2⟩, fun h ↦ ⟨h.plain, h.fault⟩⟩

namespace Directory

/-- The place that the root leads to. -/
def base (d : Directory) : Place := Path.place (d.files.start d.root) d.root

/-- The tree when the root has been created. -/
def made (d : Directory) : FileTree := (d.files.createAll d.root).2

/-- A directory that mirrors a memory.  The root stands, unless there are no keys yet. -/
structure Mirrors (d : Directory) (m : Memory) : Prop where
  creatable : (d.files.createAll d.root).1 = .ok ()
  tree : d.made.Mirrors d.base m
  stands : d.files.locate d.root = .ok (.directory d.base) ∨ ∀ key, m.read key = none

variable {d : Directory} {m : Memory} {key : String}

/-! ### Roots that can be created -/

/-- All directories on the way to the root can be created. -/
def Creatable (d : Directory) : Prop := (d.files.createAll d.root).1 = .ok ()

namespace Creatable

variable (h : d.Creatable)
include h

theorem createAll_eq :
    d.files.createAll d.root = d.files.createFrom (d.files.start d.root) d.root :=
  (FileTree.createAll_eq_ok h).2

theorem fault_eq : d.root.fault? = none := (FileTree.createAll_eq_ok h).1

theorem locate_root : d.files.locate d.root = d.files.walk (d.files.start d.root) d.root := by
  rw [FileTree.locate, h.fault_eq]

theorem createFrom_ok : (d.files.createFrom (d.files.start d.root) d.root).1 = .ok () := by
  rw [← h.createAll_eq]
  exact h

theorem createFrom_stem_ok :
    (d.files.createFrom (d.files.start d.root) d.root.stem).1 = .ok () := by
  rw [FileTree.createFrom_stem]
  exact h.createFrom_ok

theorem made_eq : d.made = (d.files.createFrom (d.files.start d.root) d.root).2 := by
  rw [made, h.createAll_eq]

/-- Once the root stands, nothing is left to be created. -/
theorem made_eq_files (hroot : d.files.locate d.root = .ok (.directory d.base)) :
    d.made = d.files := by
  rw [h.locate_root] at hroot
  rw [h.made_eq, FileTree.createFrom_of_walk hroot]

theorem walk_stem (hroot : d.files.locate d.root = .ok (.directory d.base)) :
    d.files.walk (d.files.start d.root) d.root.stem = .ok (.directory d.base) := by
  rw [h.locate_root] at hroot
  exact (FileTree.walk_stem h.createFrom_ok).mpr hroot

/-- A root that does not stand leads to nothing, and so does what is behind it. -/
theorem locate_cases : d.files.locate d.root = .ok (.directory d.base) ∨
    ((∃ q, d.files.locate d.root = .ok (.vacant q)) ∨ d.files.locate d.root = .error .absent) ∧
      ∀ p, p ≠ [] → d.files.walk (d.files.start d.root) (d.root.stem ++ p) = .error .absent := by
  rw [h.locate_root]
  rcases FileTree.walk_cases h.createFrom_stem_ok with hstem | ⟨-, hbehind⟩
  · rw [Path.place_stem] at hstem
    exact .inl ((FileTree.walk_stem h.createFrom_ok).mp hstem)
  · rcases FileTree.walk_cases h.createFrom_ok with hroot | ⟨hmissing, -⟩
    · exact .inl hroot
    · exact .inr ⟨hmissing, hbehind⟩

/-- When the root has been created, it stands. -/
theorem walk_made : d.made.walk (d.files.start d.root) d.root = .ok (.directory d.base) := by
  rw [h.made_eq]
  exact FileTree.walk_of_createFrom h.createFrom_ok

theorem walk_made_stem :
    d.made.walk (d.files.start d.root) d.root.stem = .ok (.directory d.base) := by
  rw [h.made_eq, ← FileTree.createFrom_stem, FileTree.walk_of_createFrom h.createFrom_stem_ok,
    Path.place_stem]
  rfl

theorem start_made (p : Path) : d.made.start p = d.files.start p := by
  rw [h.made_eq, FileTree.start_createFrom]

/-- What is created behind the root is created below it when it has been created. -/
theorem createFrom_stem (way : Path) :
    d.files.createFrom (d.files.start d.root) (d.root.stem ++ way) =
      d.made.createFrom d.base way := by
  rw [FileTree.createFrom_append h.createFrom_stem_ok, FileTree.createFrom_stem, ← h.made_eq,
    Path.place_stem]
  rfl

end Creatable

theorem creatable_of_locate (hroot : d.files.locate d.root = .ok (.directory d.base)) :
    d.Creatable := by
  obtain ⟨hfault, hwalk⟩ := FileTree.locate_eq_ok hroot
  rw [Creatable, FileTree.createAll, hfault]
  exact congrArg Prod.fst (FileTree.createFrom_of_walk hwalk)

/-! ### Keys below the root -/

theorem start_join (h : isValidKey key = true) :
    d.files.start (d.root.join (Path.ofString key)) = d.files.start d.root := by
  obtain ⟨⟨name, rest, hkey, hname⟩, -⟩ := isValidKey_iff.mp h
  rw [FileTree.start, FileTree.start, hkey, Path.isAbsolute_join hname]

theorem isValidKey_of_fits (h : d.root.Fits key) : isValidKey key = true := by
  have hplain := h.plain
  refine isValidKey_iff.mpr ⟨?_, fun name hname ↦ (hplain name hname).down⟩
  cases hkey : Path.ofString key with
  | nil => exact (Path.ofString_ne_nil key hkey).elim
  | cons name rest =>
    rw [hkey] at hplain
    exact ⟨name, rest, rfl, (hplain name List.mem_cons_self).ne_nil⟩

theorem path_of_fits (h : d.root.Fits key) :
    d.path key = .ok (d.root.join (Path.ofString key)) := by
  rw [path, if_pos (isValidKey_of_fits h)]

theorem locate_join (h : isValidKey key = true)
    (hfault : (d.root.join (Path.ofString key)).fault? = none) :
    d.files.locate (d.root.join (Path.ofString key)) =
      d.files.walk (d.files.start d.root) (d.root.stem ++ Path.ofString key) := by
  rw [FileTree.locate, hfault, start_join h, Path.join_eq]

/-- The directories above a key are those on the way to the root and from there to the last name. -/
theorem createAll_parent_join (h : isValidKey key = true) {way : Path} {name : FileName}
    (hkey : Path.ofString key = way ++ [name]) (hidle : Path.isIdle name = false)
    (hfault : (d.root.join (Path.ofString key)).fault? = none) :
    d.files.createAll (d.root.join (Path.ofString key)).parent =
      d.files.createFrom (d.files.start d.root) (d.root.stem ++ way) := by
  have hpath : d.root.join (Path.ofString key) = d.root.stem ++ way ++ [name] := by
    rw [Path.join_eq, hkey, List.append_assoc]
  have hstart := start_join (d := d) h
  rw [hpath] at hfault hstart ⊢
  rw [FileTree.createAll_parent hidle hfault, hstart]

namespace Mirrors

theorem root_creatable (h : d.Mirrors m) : d.Creatable := h.creatable

/-- Once the root stands, the tree itself mirrors the memory. -/
theorem tree_of_locate (h : d.Mirrors m) (hroot : d.files.locate d.root = .ok (.directory d.base)) :
    d.files.Mirrors d.base m := by
  have htree := h.tree
  rwa [h.root_creatable.made_eq_files hroot] at htree

/-- A tree in which the root stands and that mirrors a memory below it. -/
theorem of_locate (hroot : d.files.locate d.root = .ok (.directory d.base))
    (htree : d.files.Mirrors d.base m) : d.Mirrors m := by
  have hcreatable := creatable_of_locate hroot
  exact ⟨hcreatable, by rw [hcreatable.made_eq_files hroot]; exact htree, .inl hroot⟩

/-! ### Looking keys up -/

theorem locate_of_read (h : d.Mirrors m) (hfit : d.root.Fits key) {octets : List UInt8}
    (hread : m.read key = some octets) :
    ∃ q, d.files.locate (d.root.join (Path.ofString key)) = .ok (.file q octets) := by
  rcases h.stands with hroot | hnone
  · refine ⟨d.base ++ Path.ofString key, ?_⟩
    rw [locate_join (isValidKey_of_fits hfit) hfit.fault,
      FileTree.walk_append (h.root_creatable.walk_stem hroot)]
    exact (h.tree_of_locate hroot).walk_of_read hfit.plain hread
  · rw [hnone key] at hread
    cases hread

theorem locate_of_read_eq_none (h : d.Mirrors m) (hfit : d.root.Fits key) (hsep : m.Separate key)
    (hread : m.read key = none) :
    (∃ q, d.files.locate (d.root.join (Path.ofString key)) = .ok (.vacant q)) ∨
      d.files.locate (d.root.join (Path.ofString key)) = .error .absent := by
  rw [locate_join (isValidKey_of_fits hfit) hfit.fault]
  rcases h.root_creatable.locate_cases with hroot | ⟨-, hbehind⟩
  · rw [FileTree.walk_append (h.root_creatable.walk_stem hroot)]
    exact (h.tree_of_locate hroot).walk_of_read_eq_none hsep hfit.plain hread
  · exact .inr (hbehind _ (Path.ofString_ne_nil key))

theorem contains_eq (h : d.Mirrors m) (hfit : d.root.Fits key) (hsep : m.Separate key) :
    d.contains key = .ok (m.contains key) := by
  rw [contains, path_of_fits hfit, Memory.contains_eq]
  cases hread : m.read key with
  | some octets =>
    obtain ⟨q, hq⟩ := h.locate_of_read hfit hread
    simp [hq]
  | none =>
    rcases h.locate_of_read_eq_none hfit hsep hread with ⟨q, hq⟩ | hq
    · simp [hq]
    · simp [hq]

theorem read_eq (h : d.Mirrors m) (hfit : d.root.Fits key) (hsep : m.Separate key) :
    d.read key = .ok (m.read key) := by
  rw [Directory.read, path_of_fits hfit]
  cases hread : m.read key with
  | some octets =>
    obtain ⟨q, hq⟩ := h.locate_of_read hfit hread
    simp [FileTree.read, hq]
  | none =>
    rcases h.locate_of_read_eq_none hfit hsep hread with ⟨q, hq⟩ | hq
    · simp [FileTree.read, hq]
    · simp [FileTree.read, hq]

/-! ### Filing octets -/

section Filing

variable (h : d.Mirrors m) (hfit : d.root.Fits key) (hsep : m.Separate key)
  {ns : Path} {name : FileName} (hkey : Path.ofString key = ns ++ [name])
include h hfit hsep hkey

/-- The directories above a key are the root and those on the way from it. -/
theorem createAll_parent_eq :
    d.files.createAll (d.root.join (Path.ofString key)).parent =
      (.ok (), (d.made.createFrom d.base ns).2) := by
  have hidle : Path.isIdle name = false := (hfit.plain name (by simp [hkey])).moves
  rw [createAll_parent_join (isValidKey_of_fits hfit) hkey hidle hfit.fault,
    h.root_creatable.createFrom_stem]
  exact Prod.ext (h.tree.createFrom_ok hsep hfit.plain hkey) rfl

theorem locate_createFrom :
    (d.made.createFrom d.base ns).2.locate (d.root.join (Path.ofString key)) =
      .ok (.ofNode (d.base ++ Path.ofString key) ((m.read key).map .file)) := by
  have hstem := FileTree.walk_createFrom h.root_creatable.walk_made_stem (by simp) d.base ns
  rw [FileTree.locate, hfit.fault, FileTree.start_createFrom, h.root_creatable.start_made,
    start_join (isValidKey_of_fits hfit), Path.join_eq]
  exact (FileTree.walk_append hstem _).trans (h.tree.walk_createFrom_key hsep hfit.plain hkey)

theorem update_createFrom (change : List UInt8 → List UInt8) :
    (d.made.createFrom d.base ns).2.update (d.root.join (Path.ofString key)) change =
      .ok ((d.made.createFrom d.base ns).2.set (d.base ++ Path.ofString key)
        (.file (change ((m.read key).getD [])))) := by
  rw [FileTree.update, h.locate_createFrom hfit hsep hkey]
  cases m.read key <;> rfl

/-- The file of a key leaves the root where it stands. -/
theorem locate_root_set (octets : List UInt8) :
    ((d.made.createFrom d.base ns).2.set (d.base ++ Path.ofString key)
      (.file octets)).locate d.root = .ok (.directory d.base) := by
  have hfree : (d.made.createFrom d.base ns).2.node? (d.base ++ Path.ofString key) ≠
      some .directory := by
    rw [h.tree.node?_createFrom_key hsep hfit.plain hkey]
    cases m.read key <;> simp
  have hroot := FileTree.walk_createFrom h.root_creatable.walk_made (by simp) d.base ns
  have hstart : ((d.made.createFrom d.base ns).2.set (d.base ++ Path.ofString key)
      (.file octets)).start d.root = d.files.start d.root := by
    rw [FileTree.start, FileTree.here_set, ← FileTree.start, FileTree.start_createFrom,
      h.root_creatable.start_made]
  rw [FileTree.locate, h.root_creatable.fault_eq, hstart]
  exact FileTree.walk_set_of_directory hroot hfree octets

end Filing

/-- Filing octets under a key succeeds and keeps the directory in step with the memory.  The root
and the directories on the way are created when they are missing. -/
theorem update_eq (h : d.Mirrors m) (hfit : d.root.Fits key) (hsep : m.Separate key)
    (action : FileAction) (change : List UInt8 → List UInt8) :
    ∃ d', d.update action key (fun t p ↦ t.update p change) = (.ok (), d') ∧ d'.root = d.root ∧
      d'.Mirrors (m.put key (change ((m.read key).getD []))) := by
  obtain ⟨ns, name, hkey⟩ := List.eq_nil_or_concat _ |>.resolve_left (Path.ofString_ne_nil key)
  rw [List.concat_eq_append] at hkey
  have hroot := h.locate_root_set hfit hsep hkey (change ((m.read key).getD []))
  have htree := h.tree.put hsep hfit.plain hkey (change ((m.read key).getD []))
  generalize hfiles : (d.made.createFrom d.base ns).2.set (d.base ++ Path.ofString key)
    (.file (change ((m.read key).getD []))) = files at hroot htree
  refine ⟨{ d with files := files }, ?_, rfl, ?_⟩
  · rw [update, path_of_fits hfit]
    simp only [h.createAll_parent_eq hfit hsep hkey, h.update_createFrom hfit hsep hkey, hfiles]
  · have hbase : base { d with files := files } = d.base :=
      ((FileTree.walk_spec (FileTree.locate_eq_ok hroot).2).1).symm
    exact of_locate (by rw [hbase]; exact hroot) (by rw [hbase]; exact htree)

theorem put_eq (h : d.Mirrors m) (hfit : d.root.Fits key) (hsep : m.Separate key)
    (octets : List UInt8) :
    ∃ d', d.put key octets = (.ok (), d') ∧ d'.root = d.root ∧ d'.Mirrors (m.put key octets) :=
  h.update_eq hfit hsep .write fun _ ↦ octets

theorem append_eq (h : d.Mirrors m) (hfit : d.root.Fits key) (hsep : m.Separate key)
    (octets : List UInt8) :
    ∃ d', d.append key octets = (.ok (), d') ∧ d'.root = d.root ∧
      d'.Mirrors (m.append key octets) :=
  h.update_eq hfit hsep .openFile (· ++ octets)

/-! ### Finding keys -/

/-- The keys that listing directories finds are those of the memory. -/
theorem perm_keys (h : d.Mirrors m) (hroot : d.files.locate d.root = .ok (.directory d.base))
    (e : FileTree.Enumeration) :
    ((d.files.filesFrom e [d.base]).map fun p ↦ Path.toString (p.drop d.base.length)).Perm
      m.cells.keys := by
  have htree := h.tree_of_locate hroot
  have hkey {p : Place} (hp : p ∈ d.files.filesFrom e [d.base]) :
      ∃ key, p = d.base ++ Path.ofString key ∧ key ∈ m.cells.keys := by
    obtain ⟨q, hq, hbelow⟩ := (FileTree.mem_filesFrom e _).mp hp
    obtain rfl := List.mem_singleton.mp hq
    obtain ⟨ns, hns, rfl⟩ := hbelow.append
    obtain ⟨octets, hfile⟩ := hbelow.node?
    obtain ⟨key, rfl, hread⟩ := (htree.file ns octets hns).mp hfile
    exact ⟨key, rfl, Memory.mem_keys_iff.mpr ⟨octets, hread⟩⟩
  rw [List.perm_ext_iff_of_nodup]
  · intro key
    rw [List.mem_map]
    constructor
    · rintro ⟨p, hp, rfl⟩
      obtain ⟨key, rfl, hmem⟩ := hkey hp
      rwa [List.drop_left, Path.toString_ofString]
    · intro hmem
      obtain ⟨octets, hread⟩ := Memory.mem_keys_iff.mp hmem
      have hne := Path.ofString_ne_nil key
      refine ⟨d.base ++ Path.ofString key, (FileTree.mem_filesFrom e _).mpr ⟨d.base, by simp, ?_⟩,
        ?_⟩
      · refine .of_directories hne ((htree.file _ octets hne).mpr ⟨key, rfl, hread⟩) ?_
        exact fun ms hms hpre hneq ↦ (htree.directory ms hms).mpr ⟨key, ⟨octets, hread⟩, hpre, hneq⟩
      · rw [List.drop_left, Path.toString_ofString]
  · refine List.Nodup.map_on ?_ (FileTree.nodup_filesFrom e (List.pairwise_singleton _ _))
    intro p hp p' hp' heq
    obtain ⟨key, rfl, -⟩ := hkey hp
    obtain ⟨key', rfl, -⟩ := hkey hp'
    rw [List.drop_left, List.drop_left, Path.toString_ofString, Path.toString_ofString] at heq
    rw [heq]
  · exact m.pairwise_keys.imp Std.ne_of_lt

/-- Directories on the way to keys that fit can be listed. -/
theorem listable (h : d.Mirrors m) (hroot : d.files.locate d.root = .ok (.directory d.base))
    (hfits : ∀ key octets, m.read key = some octets → d.root.Fits key) :
    d.Listable d.base := by
  intro ns hleads
  have hfault : (d.root.join ns).fault? = none := by
    rw [Path.join_eq]
    by_cases hns : ns = []
    · rw [hns, List.append_nil]
      exact Path.fault?_of_sublist d.root.sublist_stem h.root_creatable.fault_eq
    · obtain ⟨key, ⟨octets, hread⟩, hpre, -⟩ :=
        ((h.tree_of_locate hroot).directory ns hns).mp (hleads.node? hns)
      have hfit := (hfits key octets hread).fault
      rw [Path.join_eq] at hfit
      exact Path.fault?_of_sublist (hpre.sublist.append_left _) hfit
  rw [unlisted?, hfault, Option.map_none]

/-- Finding keys by listing directories, whatever the order of the listings, gives the keys that the
memory finds. -/
theorem find_eq (h : d.Mirrors m) (hnamed : d.root.text ≠ [])
    (hfits : ∀ key octets, m.read key = some octets → d.root.Fits key)
    (e : FileTree.Enumeration) (pre : String) : d.find e pre = .ok (m.find pre) := by
  rcases h.root_creatable.locate_cases with hroot | ⟨hmissing, -⟩
  · rw [find_of_listable hnamed hroot (h.listable hroot hfits)]
    exact congrArg Except.ok (Memory.mergeSort_filter (h.perm_keys hroot e) pre)
  · have hempty : ∀ key, m.read key = none := by
      refine h.stands.resolve_left fun hroot ↦ ?_
      simp [hroot] at hmissing
    rw [Memory.find_eq_nil hempty, find_of_missing hmissing]

end Mirrors

end Directory

end TripleIndex
