import TripleIndex.Proofs.Descent
import TripleIndex.Proofs.Refinement

/-!
# Keys beside one another

What is filed under one key of a directory can be noticed under another one, since keys are paths:
there are many keys for one file, files and directories cannot stand in one place, and names that
are too long are not noticed before a walk has come to them.  Nothing else is noticed
(`Directory.sparesOthers_after`).

The root has to stand in a tree in which whatever stands stands in a directory, or there has to be
nothing below it as yet (`Directory.Rooted`).  Searches succeed only where every directory below the
root has a path that is not too long, and not at all at the empty path (`Directory.Searchable`).
Both are kept by all requests, also by those that fail after directories have been created
(`Directory.Lasting`).
-/

namespace TripleIndex

namespace Directory

variable {d d' : Directory} {key k : String}

/-! ## Rooted directories -/

/-- Whatever stands below the root stands in a directory, and if the root does not stand, nothing
does. -/
structure Settled (d : Directory) : Prop where
  closed : d.made.ClosedBelow d.base
  stands : d.files.locate d.root = .ok (.directory d.base) ∨ d.made.Bare d.base

/-- Below a root that cannot be created nothing is ever filed, so that it does not matter what is
there. -/
def Rooted (d : Directory) : Prop := d.Creatable → d.Settled

theorem Fresh.rooted (h : d.Fresh) : d.Rooted := fun _ ↦ ⟨h.bare.closedBelow, .inr h.bare⟩

/-- In a tree whose nodes stand in directories, any root without names that lead up will do. -/
theorem rooted_of_closed (hfiles : d.files.Closed)
    (hdown : ∀ name ∈ d.root, Path.isUp name = false) : d.Rooted := by
  intro hcreatable
  rcases hcreatable.locate_cases with hroot | ⟨hmissing, -⟩
  · refine ⟨?_, .inl hroot⟩
    rw [hcreatable.made_eq_files hroot]
    exact hfiles.closedBelow d.base
  · have hshort : ∀ name ∈ d.root, Path.octetCount name ≤ Path.nameLimit := by
      intro name hname
      by_cases hidle : Path.isIdle name = true
      · rcases Path.isIdle_iff.mp hidle with rfl | rfl <;> decide
      · exact (FileTree.plain_of_createFrom hcreatable.createFrom_ok hdown name
          (List.mem_filter.mpr ⟨hname, by simpa using hidle⟩)).short
    exact (fresh_of_missing hfiles hcreatable.fault_eq
      (fun name hname ↦ ⟨hdown name hname, hshort name hname⟩) hmissing.symm).rooted hcreatable

/-! ## Filing -/

/-- A file has been filed under a key.  The root stands, and below it the tree has grown along the
names of the key. -/
structure Gains (d d' : Directory) (key : String) : Prop where
  creatable : d.Creatable
  fault_eq : (d.root.join (Path.ofString key)).fault? = none
  root_eq : d'.root = d.root
  here_eq : d'.files.here = d.files.here
  walk_root : d'.files.walk (d.files.start d.root) d.root = .ok (.directory d.base)
  grown : d.made.Grown d'.files d.base (Path.ofString key).names
  closed : d.made.ClosedBelow d.base → d'.files.ClosedBelow d.base

/-- What is behind a root cannot be created when the root cannot. -/
theorem creatable_of_createFrom {way : Path} (hfault : d.root.fault? = none)
    (hok : (d.files.createFrom (d.files.start d.root) (d.root.stem ++ way)).1 = .ok ()) :
    d.Creatable := by
  have hstem := FileTree.createFrom_ok_of_append hok
  rw [FileTree.createFrom_stem] at hstem
  rw [Creatable, FileTree.createAll, hfault]
  exact hstem

/-- A file put at the end of the way from the root is a gain. -/
theorem gains_set {way : Path} {name : FileName} (hcreatable : d.Creatable)
    (hfault : (d.root.join (Path.ofString key)).fault? = none)
    (hkey : (Path.ofString key).names = way ++ [name]) (hway : ∀ m ∈ way, Path.Plain m)
    (hok : (d.made.createFrom d.base way).1 = .ok ())
    (hfree : (d.made.createFrom d.base way).2.node? (d.base ++ (way ++ [name])) ≠ some .directory)
    (octets : List UInt8) :
    d.Gains ⟨(d.made.createFrom d.base way).2.set (d.base ++ (way ++ [name])) (.file octets),
      d.root⟩ key where
  creatable := hcreatable
  fault_eq := hfault
  root_eq := rfl
  here_eq := by
    rw [FileTree.here_set, FileTree.here_createFrom, hcreatable.made_eq, FileTree.here_createFrom]
  walk_root :=
    FileTree.walk_set_of_directory
      (FileTree.walk_createFrom hcreatable.walk_made (by simp) d.base way) hfree octets
  grown := by
    rw [hkey]
    exact FileTree.grown_set hway hok hfree octets
  closed hclosed := by
    have hcreated := hclosed.createFrom [] (by simp) fun m hm ↦ (hway m hm).down
    rw [List.append_nil] at hcreated
    refine hcreated.set (fun hne ↦ ?_) hfree (.file octets)
    exact FileTree.node?_createFrom_plain hway hok hne List.prefix_rfl

theorem gains_of_update {action : FileAction} {change : List UInt8 → List UInt8}
    (h : d.update action key (fun t p ↦ t.update p change) = (.ok (), d')) : d.Gains d' key := by
  obtain ⟨hvalid, t, t', hmade, hchange, rfl⟩ := exists_of_update h
  obtain ⟨s, octets, hlocate, hs, rfl⟩ := FileTree.exists_set_of_update hchange
  obtain ⟨hfault, hwalk⟩ := FileTree.locate_eq_ok hlocate
  obtain ⟨way, name, hkey⟩ := List.eq_nil_or_concat _ |>.resolve_left (Path.ofString_ne_nil key)
  rw [List.concat_eq_append] at hkey
  have hidle : Path.isIdle name = false := by
    obtain ⟨way', name', -, hpath, hidle, -, -⟩ := FileTree.exists_concat_of_walk hwalk hs
    rw [Path.join_eq, hkey, ← List.append_assoc] at hpath
    obtain ⟨-, hlast⟩ := List.append_inj' hpath rfl
    rwa [List.singleton_inj.mp hlast]
  have hnames : (Path.ofString key).names = Path.names way ++ [name] := by
    rw [hkey, Path.names_concat hidle]
  have hdown := (isValidKey_iff.mp hvalid).2
  rw [createAll_parent_join hvalid hkey hidle hfault] at hmade
  have hcreatable : d.Creatable :=
    creatable_of_createFrom (Path.fault?_of_join (Path.ofString_ne_nil key) hfault) (by rw [hmade])
  rw [hcreatable.createFrom_stem, ← FileTree.createFrom_names] at hmade
  have hok : (d.made.createFrom d.base (Path.names way)).1 = .ok () := by rw [hmade]
  obtain rfl : (d.made.createFrom d.base (Path.names way)).2 = t := by rw [hmade]
  have hplace : s.place = d.base ++ (Path.names way ++ [name]) := by
    rw [(FileTree.walk_spec hwalk).1, FileTree.start_createFrom, hcreatable.start_made,
      place_join hvalid, hnames]
  have hfree := FileTree.node?_place_ne (FileTree.walk_spec hwalk).2 hs
  rw [hplace] at hfree ⊢
  refine gains_set hcreatable hfault hnames (fun m hm ↦ ?_) hok hfree octets
  rw [FileTree.createFrom_names] at hok
  exact FileTree.plain_of_createFrom hok
    (fun m hm ↦ hdown m (hkey ▸ List.mem_append_left _ hm)) m hm

/-! ## Properties that last

A request that succeeds files something, and one that fails leaves the directories that it has
created.  What holds of both holds behind all requests. -/

theorem settled_of_locate (hroot : d.files.locate d.root = .ok (.directory d.base))
    (hclosed : d.files.ClosedBelow d.base) : d.Settled := by
  refine ⟨?_, .inl hroot⟩
  rwa [(creatable_of_locate hroot).made_eq_files hroot]

namespace Gains

variable (h : d.Gains d' key)
include h

theorem start_eq (p : Path) : d'.files.start p = d.files.start p := by
  rw [FileTree.start, FileTree.start, h.here_eq]

theorem base_eq : d'.base = d.base := by
  rw [base, base, h.root_eq, h.start_eq]

theorem path_eq (k : String) : d'.path k = d.path k := by
  rw [path, path, h.root_eq]

theorem locate_root : d'.files.locate d'.root = .ok (.directory d'.base) := by
  rw [FileTree.locate, h.base_eq, h.root_eq, h.start_eq, h.creatable.fault_eq]
  exact h.walk_root

theorem made_eq_files : d'.made = d'.files :=
  (creatable_of_locate h.locate_root).made_eq_files h.locate_root

theorem settled (hd : d.Settled) : d'.Settled := by
  refine settled_of_locate h.locate_root ?_
  rw [h.base_eq]
  exact h.closed hd.closed

end Gains

/-- What is left when a change fails. -/
theorem files_of_update_error {action : FileAction}
    {change : FileTree → Path → Except FileFault FileTree} {f : StorageFault}
    (h : d.update action key change = (.error f, d')) :
    d' = d ∨ isValidKey key = true ∧
      d' = ⟨(d.files.createAll (d.root.join (Path.ofString key)).parent).2, d.root⟩ := by
  rw [update] at h
  cases hp : d.path key with
  | error g => exact .inl (by simpa [hp] using (congrArg Prod.snd h).symm)
  | ok p =>
    obtain ⟨hvalid, rfl⟩ := path_eq_ok_iff.mp hp
    refine .inr ⟨hvalid, ?_⟩
    simp only [hp] at h
    split at h
    · exact (congrArg Prod.snd h).symm
    · split at h
      · exact (congrArg Prod.snd h).symm
      · cases h

/-- The directory when directories have been created along a path from where the root begins, as
far as this is possible. -/
def advance (d : Directory) (way : Path) : Directory :=
  ⟨(d.files.createFrom (d.files.start d.root) way).2, d.root⟩

/-- A property of directories that no request takes from them: neither filing something under a
key, nor creating directories on the way to one. -/
structure Lasting (P : Directory → Prop) : Prop where
  gains : ∀ {d d' key}, d.Gains d' key → P d → P d'
  advance : ∀ {d : Directory} {way : Path} {key : String}, isValidKey key = true →
    way <+: d.root.join (Path.ofString key) → way.fault? = none → P d → P (d.advance way)

namespace Lasting

variable {P : Directory → Prop} (hP : Lasting P)
include hP

theorem update (h : P d) (action : FileAction) (key : String)
    (change : List UInt8 → List UInt8) :
    P (d.update action key fun t p ↦ t.update p change).2 := by
  generalize hresult : (d.update action key fun t p ↦ t.update p change) = result
  obtain ⟨done, d'⟩ := result
  cases done with
  | ok u => exact hP.gains (gains_of_update hresult) h
  | error f =>
    rcases files_of_update_error hresult with rfl | ⟨hvalid, rfl⟩
    · exact h
    · rcases d.files.createAll_parent_cases (d.root.join (Path.ofString key)) with
        heq | ⟨way, hway, hfault, heq⟩
      · rw [heq]
        exact h
      · rw [heq, start_join hvalid]
        exact hP.advance hvalid hway hfault h

theorem answer (h : P d) (r : Storage.Request) :
    ∃ d', ((Storage.directory d).answer r).2 = .directory d' ∧ P d' := by
  cases r with
  | put key octets => exact ⟨_, rfl, hP.update h .write key fun _ ↦ octets⟩
  | append key octets => exact ⟨_, rfl, hP.update h .openFile key (· ++ octets)⟩
  | read key => exact ⟨d, rfl, h⟩
  | contains key => exact ⟨d, rfl, h⟩
  | find e pre => exact ⟨d, rfl, h⟩

theorem after (h : P d) {rs : List Storage.Request}
    (hd : (Storage.directory d).after rs = .directory d') : P d' := by
  induction rs generalizing d with
  | nil =>
    cases hd
    exact h
  | cons r rs ih =>
    obtain ⟨d₁, h₁, hlasts⟩ := hP.answer h r
    rw [Storage.after_cons, h₁] at hd
    exact ih hlasts hd

end Lasting

section Advance

variable {way : Path}

theorem start_advance (d : Directory) (way p : Path) :
    (d.advance way).files.start p = d.files.start p :=
  FileTree.start_createFrom d.files _ way p

theorem base_advance (d : Directory) (way : Path) : (d.advance way).base = d.base :=
  congrArg (Path.place · d.root) (d.start_advance way d.root)

/-- A root that can be created after some directories can be created before them. -/
theorem creatable_of_advance (h : (d.advance way).Creatable) : d.Creatable := by
  have hok := h.createFrom_ok
  rw [start_advance] at hok
  rw [Creatable, FileTree.createAll, show d.root.fault? = none from h.fault_eq]
  exact (FileTree.extends_createFrom _ _ _).createFrom_ok hok

/-- Creating the root goes on from where it has been left. -/
theorem made_advance (hcreatable : d.Creatable) (h : (d.advance way).Creatable)
    (hway : way <+: d.root.stem) : (d.advance way).made = d.made := by
  obtain ⟨rest, hstem⟩ := hway
  have hok : (d.files.createFrom (d.files.start d.root) way).1 = .ok () :=
    FileTree.createFrom_ok_of_append (hstem ▸ hcreatable.createFrom_stem_ok)
  have hagain := FileTree.createFrom_again hok rest
  rw [hstem, FileTree.createFrom_stem, FileTree.createFrom_stem] at hagain
  rw [h.made_eq, hcreatable.made_eq, start_advance]
  exact congrArg Prod.snd hagain

/-- What is created along a path that goes on behind the root is created below the root. -/
theorem files_advance (hcreatable : d.Creatable) (way : Path) :
    (d.advance (d.root.stem ++ way)).files = (d.made.createFrom d.base way).2 :=
  congrArg Prod.snd (hcreatable.createFrom_stem way)

theorem locate_advance (hcreatable : d.Creatable)
    (h : (d.advance (d.root.stem ++ way)).Creatable) :
    (d.advance (d.root.stem ++ way)).files.locate d.root =
      .ok (.directory (d.advance (d.root.stem ++ way)).base) := by
  rw [base_advance]
  refine h.locate_root.trans ?_
  rw [start_advance, files_advance hcreatable]
  exact FileTree.walk_createFrom hcreatable.walk_made (by simp) d.base way

theorem Settled.advance_above (hd : d.Settled) (hcreatable : d.Creatable)
    (h : (d.advance way).Creatable) (hway : way <+: d.root.stem) : (d.advance way).Settled := by
  have hmade := made_advance hcreatable h hway
  refine ⟨by rw [hmade, base_advance]; exact hd.closed, ?_⟩
  rcases hd.stands with hstands | hbare
  · rw [hcreatable.locate_root] at hstands
    refine .inl ?_
    rw [h.locate_root, start_advance, base_advance]
    exact FileTree.walk_createFrom hstands (by simp) _ way
  · exact .inr (by rw [hmade, base_advance]; exact hbare)

/-- The root has been created, and directories below it. -/
theorem Settled.advance_below (hd : d.Settled) (hcreatable : d.Creatable)
    (h : (d.advance (d.root.stem ++ way)).Creatable)
    (hdown : ∀ name ∈ way, Path.isUp name = false) :
    (d.advance (d.root.stem ++ way)).Settled := by
  refine settled_of_locate (locate_advance hcreatable h) ?_
  have hclosed := hd.closed.createFrom [] (by simp) hdown
  rwa [List.append_nil, ← files_advance hcreatable, ← d.base_advance] at hclosed

/-- The way to a key ends above the root, or it has passed the root. -/
theorem way_cases (hvalid : isValidKey key = true)
    (hway : way <+: d.root.join (Path.ofString key)) :
    way <+: d.root.stem ∨
      ∃ rest, way = d.root.stem ++ rest ∧ ∀ name ∈ rest, Path.isUp name = false := by
  rw [Path.join_eq] at hway
  rcases List.prefix_or_prefix_of_prefix hway (List.prefix_append d.root.stem _) with hpre | hpre
  · exact .inl hpre
  · obtain ⟨rest, rfl⟩ := hpre
    have hrest : rest <+: Path.ofString key := (List.prefix_append_right_inj _).mp hway
    exact .inr ⟨rest, rfl, fun name hname ↦ (isValidKey_iff.mp hvalid).2 name (hrest.subset hname)⟩

end Advance

/-- No request uproots a directory. -/
theorem lasting_rooted : Lasting Rooted where
  gains h hd := fun _ ↦ h.settled (hd h.creatable)
  advance hvalid hway _ hd := by
    intro hafter
    have hcreatable := creatable_of_advance hafter
    rcases way_cases hvalid hway with hpre | ⟨rest, rfl, hdown⟩
    · exact (hd hcreatable).advance_above hcreatable hafter hpre
    · exact (hd hcreatable).advance_below hcreatable hafter hdown

/-! ## Directories that can be searched -/

theorem unlisted?_eq_none_iff {way : Path} :
    d.unlisted? way = none ↔ (d.root.join way).fault? = none := by
  rw [unlisted?, Option.map_eq_none_iff]

/-- Where a path that goes on behind the root can be looked up, the directories on it can be
listed. -/
theorem unlisted?_of_sublist {way p : Path} (hfault : (d.root.stem ++ p).fault? = none)
    (hway : way.Sublist p) : d.unlisted? way = none := by
  rw [unlisted?_eq_none_iff, Path.join_eq]
  exact Path.fault?_of_sublist (hway.append_left _) hfault

/-- The root is not the empty path, and when it has been created, each directory below it can be
listed. -/
structure Searchable (d : Directory) : Prop where
  named : d.root.text ≠ []
  listed : d.Creatable → ∀ ns, ns ≠ [] → d.made.node? (d.base ++ ns) = some .directory →
    d.unlisted? ns = none

theorem Fresh.searchable (h : d.Fresh) : d.Searchable where
  named := h.named
  listed _ ns hne hnode := by
    rw [h.bare ns hne] at hnode
    cases hnode

theorem Searchable.listable (h : d.Searchable)
    (hroot : d.files.locate d.root = .ok (.directory d.base)) : d.Listable d.base := by
  have hcreatable := creatable_of_locate hroot
  intro ns hleads
  by_cases hne : ns = []
  · subst hne
    refine unlisted?_of_sublist (p := []) ?_ (List.Sublist.refl _)
    rw [List.append_nil]
    exact Path.fault?_of_sublist d.root.sublist_stem hcreatable.fault_eq
  · refine h.listed hcreatable ns hne ?_
    rw [hcreatable.made_eq_files hroot]
    exact hleads.node? hne

theorem Gains.searchable (h : d.Gains d' key) (hd : d.Searchable) : d'.Searchable where
  named := by
    rw [h.root_eq]
    exact hd.named
  listed _ ns hne hnode := by
    rw [h.made_eq_files, h.base_eq] at hnode
    rw [unlisted?_eq_none_iff, h.root_eq, ← unlisted?_eq_none_iff]
    by_cases hpre : ns <+: (Path.ofString key).names
    · have hfault := h.fault_eq
      rw [Path.join_eq] at hfault
      exact unlisted?_of_sublist hfault (hpre.sublist.trans List.filter_sublist)
    · rw [h.grown.beside ns hpre] at hnode
      exact hd.listed h.creatable ns hne hnode

/-- No request makes a directory unfit for a search: a path along which directories are created is
not too long. -/
theorem lasting_searchable : Lasting Searchable where
  gains h hd := h.searchable hd
  advance {d way key} hvalid hway hfault hd := by
    refine ⟨hd.named, fun hafter ns hne hnode ↦ ?_⟩
    have hcreatable := creatable_of_advance hafter
    rw [base_advance] at hnode
    rcases way_cases hvalid hway with hpre | ⟨rest, rfl, hdown⟩
    · rw [made_advance hcreatable hafter hpre] at hnode
      exact hd.listed hcreatable ns hne hnode
    · rw [hafter.made_eq_files (locate_advance hcreatable hafter),
        files_advance hcreatable] at hnode
      rcases d.made.node?_createFrom_cases d.base rest (d.base ++ ns) with
        hsame | ⟨-, -, way, hway, hplace⟩
      · rw [hsame] at hnode
        exact hd.listed hcreatable ns hne hnode
      · have hdown' : ∀ name ∈ way, Path.isUp name = false :=
          fun name hname ↦ hdown name (hway.subset hname)
        rw [Path.place_eq_append hdown', List.append_cancel_left_eq] at hplace
        subst hplace
        exact unlisted?_of_sublist (d := d) hfault (List.filter_sublist.trans hway.sublist)

/-! ## Looking up beside a file -/

/-- What can come between a key and what is looked up under it when a file is filed under another
key: a directory on the way to the file, the file itself, or a name that is too long. -/
inductive Hinders (key k : String) : FileFault → Prop where
  | isDirectory (h : (Path.ofString k).names <+: (Path.ofString key).names) :
      Hinders key k .isDirectory
  | notDirectory (h : (Path.ofString key).names <+: (Path.ofString k).names) :
      Hinders key k .notDirectory
  | nameTooLong (h : ∃ name ∈ Path.ofString k, Path.nameLimit < Path.octetCount name) :
      Hinders key k .nameTooLong

/-- What becomes of looking a key up that does not lead to the new file. -/
theorem Gains.turns (h : d.Gains d' key) (hd : d.Settled) (hk : isValidKey k = true)
    (hne : (Path.ofString k).names ≠ (Path.ofString key).names) :
    FileTree.Turns (Path.ofString key).names (Path.ofString k).names (Path.ofString k)
      (d.files.locate (d.root.join (Path.ofString k)))
      (d'.files.locate (d.root.join (Path.ofString k))) := by
  have hdown := (isValidKey_iff.mp hk).2
  cases hfault : (d.root.join (Path.ofString k)).fault? with
  | some f =>
    rw [FileTree.locate, FileTree.locate, hfault]
    exact .same rfl
  | none =>
    have hstem : d'.files.walk (d.files.start d.root) d.root.stem = .ok (.directory d.base) := by
      have hdone := FileTree.createFrom_of_walk h.walk_root
      exact (FileTree.walk_stem (by rw [hdone])).mpr h.walk_root
    have hafter : d'.files.locate (d.root.join (Path.ofString k)) =
        d'.files.walk d.base (Path.ofString k) := by
      rw [FileTree.locate, hfault, h.start_eq, start_join hk, Path.join_eq]
      exact FileTree.walk_append hstem _
    have hturns := h.grown.turns_walk hd.closed hdown [] hne
    rw [List.append_nil, List.nil_append] at hturns
    rw [hafter, locate_join hk hfault]
    by_cases hroot : d.files.locate d.root = .ok (.directory d.base)
    · rw [h.creatable.made_eq_files hroot] at hturns
      rwa [FileTree.walk_append (h.creatable.walk_stem hroot)]
    · -- Before the root has been created, there is nothing behind it.
      obtain ⟨-, hbehind⟩ := h.creatable.locate_cases.resolve_left hroot
      rw [hbehind _ (Path.ofString_ne_nil k)]
      refine hturns.of_bare (hd.stands.resolve_left hroot) hdown rfl fun hnil ↦ ?_
      rw [hnil]
      exact List.nil_prefix

section Seen

variable {p : Path} (hp : d.path k = .ok p)
include hp

theorem read_of_absent (h : FileTree.seen (d.files.locate p) = .error .absent) :
    d.read k = .ok none := by
  rcases FileTree.seen_eq_absent_iff.mp h with ⟨q, hq⟩ | hq
  · simp only [read, hp, FileTree.read, hq]
  · simp only [read, hp, FileTree.read, hq]

theorem contains_of_absent (h : FileTree.seen (d.files.locate p) = .error .absent) :
    d.contains k = .ok false := by
  rcases FileTree.seen_eq_absent_iff.mp h with ⟨q, hq⟩ | hq
  · simp only [contains, hp, hq]
  · simp only [contains, hp, hq]

variable (hp' : d'.path k = .ok p)
  (h : FileTree.seen (d'.files.locate p) = FileTree.seen (d.files.locate p))
include hp' h

theorem read_congr : d'.read k = d.read k := by
  rcases FileTree.eq_or_absent_of_seen h with hsame | ⟨habsent', habsent⟩
  · simp only [read, hp, hp', FileTree.read, hsame]
  · rw [read_of_absent hp habsent, read_of_absent hp' habsent']

theorem contains_congr : d'.contains k = d.contains k := by
  rcases FileTree.eq_or_absent_of_seen h with hsame | ⟨habsent', habsent⟩
  · simp only [contains, hp, hp', hsame]
  · rw [contains_of_absent hp habsent, contains_of_absent hp' habsent']

end Seen

namespace Gains

variable (h : d.Gains d' key) (hd : d.Settled)
  (hne : (Path.ofString k).names ≠ (Path.ofString key).names)
include h hd hne

theorem read : d'.read k = d.read k ∨ d.read k = .ok none ∧
    ∃ p f, d.path k = .ok p ∧ Hinders key k f ∧ d'.read k = .error (fault .read p f) := by
  cases hp : d.path k with
  | error f => exact .inl (by simp only [Directory.read, hp, h.path_eq])
  | ok p =>
    have hp' := (h.path_eq k).trans hp
    obtain ⟨hk, rfl⟩ := path_eq_ok_iff.mp hp
    have hturns := h.turns hd hk hne
    generalize hlocate : d'.files.locate (d.root.join (Path.ofString k)) = r at hturns
    cases hturns with
    | same hseen => exact .inl (read_congr hp hp' (by rw [hlocate, hseen]))
    | opened place habsent hpre =>
      refine .inr ⟨read_of_absent hp habsent, _, _, rfl, .isDirectory hpre, ?_⟩
      simp only [Directory.read, hp', FileTree.read, hlocate]
    | blocked habsent hpre =>
      refine .inr ⟨read_of_absent hp habsent, _, _, rfl, .notDirectory hpre, ?_⟩
      simp only [Directory.read, hp', FileTree.read, hlocate]
    | tooLong habsent hlong =>
      refine .inr ⟨read_of_absent hp habsent, _, _, rfl, .nameTooLong hlong, ?_⟩
      simp only [Directory.read, hp', FileTree.read, hlocate]

theorem contains : d'.contains k = d.contains k ∨ d.contains k = .ok false ∧
    ∃ p f, d.path k = .ok p ∧ Hinders key k f ∧ f ≠ .isDirectory ∧
      d'.contains k = .error (fault .stat p f) := by
  cases hp : d.path k with
  | error f => exact .inl (by simp only [Directory.contains, hp, h.path_eq])
  | ok p =>
    have hp' := (h.path_eq k).trans hp
    obtain ⟨hk, rfl⟩ := path_eq_ok_iff.mp hp
    have hturns := h.turns hd hk hne
    generalize hlocate : d'.files.locate (d.root.join (Path.ofString k)) = r at hturns
    cases hturns with
    | same hseen => exact .inl (contains_congr hp hp' (by rw [hlocate, hseen]))
    | opened place habsent hpre =>
      refine .inl ?_
      rw [contains_of_absent hp habsent]
      simp only [Directory.contains, hp', hlocate]
    | blocked habsent hpre =>
      refine .inr ⟨contains_of_absent hp habsent, _, _, rfl, .notDirectory hpre, by simp, ?_⟩
      simp only [Directory.contains, hp', hlocate]
    | tooLong habsent hlong =>
      refine .inr ⟨contains_of_absent hp habsent, _, _, rfl, .nameTooLong hlong, by simp, ?_⟩
      simp only [Directory.contains, hp', hlocate]

end Gains

/-! ## Finding keys -/

/-- Once the root stands, the keys that are found are the ways down to the files below it. -/
theorem Searchable.mem_find (h : d.Searchable)
    (hroot : d.files.locate d.root = .ok (.directory d.base)) (e : FileTree.Enumeration)
    (pre : String) :
    ∃ ks, d.find e pre = .ok ks ∧ ∀ k, k ∈ ks ↔
      (∃ ns, d.files.Below d.base (d.base ++ ns) ∧ k = Path.toString ns) ∧
        pre.toList <+: k.toList := by
  refine ⟨_, find_of_listable h.named hroot (h.listable hroot) e pre, fun k ↦ ?_⟩
  rw [List.mem_mergeSort, List.mem_filter, List.mem_map, List.isPrefixOf_iff_prefix]
  refine and_congr_left' ⟨?_, ?_⟩
  · rintro ⟨p, hp, rfl⟩
    obtain ⟨q, hq, hbelow⟩ := (FileTree.mem_filesFrom e _).mp hp
    obtain rfl := List.mem_singleton.mp hq
    obtain ⟨ns, -, rfl⟩ := hbelow.append
    exact ⟨ns, hbelow, by rw [List.drop_left]⟩
  · rintro ⟨ns, hbelow, rfl⟩
    refine ⟨d.base ++ ns, (FileTree.mem_filesFrom e _).mpr ⟨d.base, by simp, hbelow⟩, ?_⟩
    rw [List.drop_left]

/-- Every key that has been found before is found, and the new file under its names. -/
theorem Gains.find (h : d.Gains d' key) (hd : d.Searchable) (e e' : FileTree.Enumeration)
    (pre : String) :
    ∃ ks ks', d.find e pre = .ok ks ∧ d'.find e' pre = .ok ks' ∧ (∀ k ∈ ks, k ∈ ks') ∧
      (pre.toList <+: (Path.toString (Path.ofString key).names).toList →
        Path.toString (Path.ofString key).names ∈ ks') := by
  obtain ⟨ks', hks', hmem'⟩ := (h.searchable hd).mem_find h.locate_root e' pre
  rw [h.base_eq] at hmem'
  have hnew (hpre : pre.toList <+: (Path.toString (Path.ofString key).names).toList) :
      Path.toString (Path.ofString key).names ∈ ks' :=
    (hmem' _).mpr ⟨⟨_, h.grown.below_new, rfl⟩, hpre⟩
  rcases h.creatable.locate_cases with hroot | ⟨hmissing, -⟩
  · obtain ⟨ks, hks, hmem⟩ := hd.mem_find hroot e pre
    refine ⟨ks, ks', hks, hks', fun k hk ↦ ?_, hnew⟩
    obtain ⟨⟨ns, hbelow, rfl⟩, hpre⟩ := (hmem k).mp hk
    rw [← h.creatable.made_eq_files hroot] at hbelow
    have hagain := h.grown.below [] (by rwa [List.append_nil])
    rw [List.append_nil] at hagain
    exact (hmem' _).mpr ⟨⟨ns, hagain, rfl⟩, hpre⟩
  · exact ⟨[], ks', find_of_missing hmissing e pre, hks', by simp, hnew⟩

/-! ## Other keys -/

/-- All that can be noticed under other keys when a file has been filed under a key.  Keys with the
same names are not other keys. -/
structure SparesOthers (d d' : Directory) (key : String) : Prop where
  read : ∀ k, (Path.ofString k).names ≠ (Path.ofString key).names →
    d'.read k = d.read k ∨ d.read k = .ok none ∧
      ∃ p f, d.path k = .ok p ∧ Hinders key k f ∧ d'.read k = .error (fault .read p f)
  contains : ∀ k, (Path.ofString k).names ≠ (Path.ofString key).names →
    d'.contains k = d.contains k ∨ d.contains k = .ok false ∧
      ∃ p f, d.path k = .ok p ∧ Hinders key k f ∧ f ≠ .isDirectory ∧
        d'.contains k = .error (fault .stat p f)
  find : d.Searchable → ∀ e e' pre, ∃ ks ks', d.find e pre = .ok ks ∧ d'.find e' pre = .ok ks' ∧
    (∀ k ∈ ks, k ∈ ks') ∧
      (pre.toList <+: (Path.toString (Path.ofString key).names).toList →
        Path.toString (Path.ofString key).names ∈ ks')

theorem Gains.sparesOthers (h : d.Gains d' key) (hd : d.Settled) : d.SparesOthers d' key where
  read _ hne := h.read hd hne
  contains _ hne := h.contains hd hne
  find hsearch := h.find hsearch

/-- After any requests to a rooted directory, filing octets under a key spares the other keys, and a
directory that could be searched at first can still be searched. -/
theorem sparesOthers_after {d₀ : Directory} (h₀ : d₀.Rooted) {rs : List Storage.Request}
    (hd : (Storage.directory d₀).after rs = .directory d) {octets : List UInt8}
    (h : d.put key octets = (.ok (), d') ∨ d.append key octets = (.ok (), d')) :
    (d₀.Searchable → d.Searchable) ∧ d.SparesOthers d' key := by
  have hgains : d.Gains d' key := by
    rcases h with h | h
    · exact gains_of_update h
    · exact gains_of_update h
  exact ⟨fun hsearch ↦ lasting_searchable.after hsearch hd,
    hgains.sparesOthers (lasting_rooted.after h₀ hd hgains.creatable)⟩

/-- A directory whose root does not exist yet. -/
def blank : Directory := ⟨{}, Path.ofString "data/graphs"⟩

theorem fresh_blank : blank.Fresh :=
  fresh_of_missing (fun q name h ↦ by simp [blank, FileTree.node?] at h) (by decide +kernel)
    (by decide +kernel) (.inl (by decide +kernel))

/-- A file beside another one.  Its key has a name that stays where it is. -/
theorem sparesOthers_after_append :
    ∃ d d' ks, (Storage.directory blank).after [.append "people/a.jsonl" [97]] = .directory d ∧
      d.put "./people/b.jsonl" [98] = (.ok (), d') ∧ d.SparesOthers d' "./people/b.jsonl" ∧
      d'.read "people/a.jsonl" = .ok (some [97]) ∧ d'.find .byName "" = .ok ks ∧
      "people/a.jsonl" ∈ ks ∧ "people/b.jsonl" ∈ ks := by
  have hd : (Storage.directory blank).after [.append "people/a.jsonl" [97]] =
      .directory (blank.append "people/a.jsonl" [97]).2 := rfl
  have hput : (blank.append "people/a.jsonl" [97]).2.put "./people/b.jsonl" [98] =
      (.ok (), ((blank.append "people/a.jsonl" [97]).2.put "./people/b.jsonl" [98]).2) :=
    Prod.ext (by decide +kernel) rfl
  obtain ⟨hsearch, hspares⟩ := sparesOthers_after fresh_blank.rooted hd (.inl hput)
  obtain ⟨ks, ks', hks, hks', hsub, hnew⟩ :=
    hspares.find (hsearch fresh_blank.searchable) .byName .byName ""
  have hfirst : (blank.append "people/a.jsonl" [97]).2.find .byName "" =
      .ok ["people/a.jsonl"] := by decide +kernel
  obtain rfl : ["people/a.jsonl"] = ks := Except.ok.inj (hfirst.symm.trans hks)
  exact ⟨_, _, ks', hd, hput, hspares, by decide +kernel, hks', hsub _ (by simp),
    hnew List.nil_prefix⟩

/-- A key with a name that is too long. -/
def longKey : String := Path.toString ["d".toList, List.replicate 256 'n']

theorem ofString_longKey : Path.ofString longKey = ["d".toList, List.replicate 256 'n'] := by
  rw [Path.ofString, longKey, Path.toString, String.toList_ofList]
  decide +kernel

/-- Other keys notice a file that has the same names, that is in the way or to which they are on
the way, and a directory in which a name turns out to be too long.  Nothing is found when the root
is the empty path. -/
theorem noticed_under_other_keys :
    ("./a" ≠ "a" ∧ (blank.put "a" [120]).1 = .ok () ∧ blank.read "./a" = .ok none ∧
      (blank.put "a" [120]).2.read "./a" = .ok (some [120])) ∧
    ((blank.put "./a" [120]).1 = .ok () ∧ (blank.put "./a" [120]).2.find .byName "" = .ok ["a"]) ∧
    ((blank.put "d" [120]).1 = .ok () ∧ blank.contains "d/x" = .ok false ∧
      (blank.put "d" [120]).2.contains "d/x" =
        .error (.file .stat "data/graphs/d/x" .notDirectory)) ∧
    ((blank.put "d/x" [120]).1 = .ok () ∧ blank.read "d" = .ok none ∧
      (blank.put "d/x" [120]).2.read "d" = .error (.file .read "data/graphs/d" .isDirectory)) ∧
    (blank.contains longKey = .ok false ∧ (blank.put "d/x" [120]).2.contains longKey =
      .error (fault .stat (blank.root.join (Path.ofString longKey)) .nameTooLong)) ∧
    ((put ⟨{}, Path.ofString ""⟩ "a" [120]).1 = .ok () ∧
      (put ⟨{}, Path.ofString ""⟩ "a" [120]).2.find .byName "" = .ok []) := by
  refine ⟨by decide +kernel, by decide +kernel, by decide +kernel, by decide +kernel, ⟨?_, ?_⟩,
    by decide +kernel⟩
  · rw [contains, path, isValidKey, ofString_longKey]
    decide +kernel
  · rw [contains, path, isValidKey, ofString_longKey]
    decide +kernel

end Directory

end TripleIndex
