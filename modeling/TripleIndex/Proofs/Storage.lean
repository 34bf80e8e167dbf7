import TripleIndex.Storage.Basic
import Mathlib.Tactic.SplitIfs

/-!
# What a storage files under a key

Appending octets to a key succeeds or not, but if it does, the key is there and is read as what has
been filed under it with the new octets behind (`Storage.keeps_of_append`).

In a directory a key may lead through directories that do not exist yet.  It cannot be looked up
then, and still there is a place that it leads to: appending creates what is missing on the way
and arrives there.  So what is filed under a key is what stands at its place, whether the place can
be reached or not (`Storage.filed?`).
-/

namespace TripleIndex

/-! ## Places of paths -/

namespace Path

/-- Where one name leads from a place. -/
def next (q : Place) (name : FileName) : Place :=
  if isIdle name then q else if isUp name then q.dropLast else q ++ [name]

/-- Where names lead from a place, whether or not anything stands there. -/
def place (q : Place) (p : Path) : Place := p.foldl next q

end Path

namespace Spot

def place : Spot → Place
  | .directory q | .file q _ | .vacant q => q

/-- A file that is found stands in the tree, and a vacant place is free there. -/
def StandsIn (t : FileTree) : Spot → Prop
  | .directory _ => True
  | .file q octets => t.node? q = some (.file octets)
  | .vacant q => t.node? q = none

end Spot

namespace FileTree

variable {t : FileTree} {q r : Place} {p : Path}

/-! ## Walking and creating -/

theorem node?_nil (t : FileTree) : t.node? [] = some .directory := rfl

theorem ne_nil_of_node? (h : t.node? r ≠ some .directory) : r ≠ [] := by
  rintro rfl
  exact h (node?_nil t)

theorem enter_spec {name : FileName} {s : Spot} (h : t.enter q name = .ok s) :
    s.place = Path.next q name ∧ s.StandsIn t := by
  unfold enter at h
  unfold Path.next
  split_ifs at h ⊢ with hidle hup hlong
  · cases h; exact ⟨rfl, trivial⟩
  · cases h; exact ⟨rfl, trivial⟩
  · cases hn : t.node? (q ++ [name]) with
    | none => simp only [hn] at h; cases h; exact ⟨rfl, hn⟩
    | some n =>
      cases n with
      | directory => simp only [hn] at h; cases h; exact ⟨rfl, trivial⟩
      | file octets => simp only [hn] at h; cases h; exact ⟨rfl, hn⟩

theorem walk_cons {name : FileName} {s : Spot} (h : t.walk q (name :: p) = .ok s) :
    (∃ next, t.enter q name = .ok (.directory next) ∧ t.walk next p = .ok s) ∨
      (t.enter q name = .ok s ∧ p = []) := by
  rw [walk] at h
  cases he : t.enter q name with
  | error f => simp [he] at h
  | ok n =>
    cases n with
    | directory next => exact .inl ⟨next, rfl, by simpa [he] using h⟩
    | file next octets =>
      cases p with
      | nil => exact .inr ⟨by simpa [he] using h, rfl⟩
      | cons m p => simp [he] at h
    | vacant next =>
      cases p with
      | nil => exact .inr ⟨by simpa [he] using h, rfl⟩
      | cons m p => simp [he] at h

theorem walk_spec {s : Spot} (h : t.walk q p = .ok s) :
    s.place = Path.place q p ∧ s.StandsIn t := by
  induction p generalizing q with
  | nil => cases h; exact ⟨rfl, trivial⟩
  | cons name p ih =>
    rcases walk_cons h with ⟨next, he, hw⟩ | ⟨he, rfl⟩
    · obtain ⟨hnext, -⟩ := enter_spec he
      obtain ⟨hs, hstands⟩ := ih hw
      refine ⟨hs.trans ?_, hstands⟩
      rw [Path.place, Path.place, List.foldl_cons, ← hnext]
      rfl
    · exact enter_spec he

theorem node?_place_ne {s : Spot} (hs : s.StandsIn t) (hspot : ∀ r, s ≠ .directory r) :
    t.node? s.place ≠ some .directory := by
  cases s with
  | directory r => exact (hspot r rfl).elim
  | file r octets =>
    have hr : t.node? r = some (.file octets) := hs
    simp [Spot.place, hr]
  | vacant r =>
    have hr : t.node? r = none := hs
    simp [Spot.place, hr]

theorem enter_set_of_directory {name : FileName} {octets : List UInt8}
    (h : t.enter q name = .ok (.directory r)) {place : Place}
    (hplace : t.node? place ≠ some .directory) :
    (t.set place (.file octets)).enter q name = .ok (.directory r) := by
  have hne : place ≠ [] := ne_nil_of_node? hplace
  unfold enter at h ⊢
  split_ifs at h ⊢ with hidle hup hlong
  · exact h
  · exact h
  · simp only [node?_set t place (q ++ [name]) _ hne]
    -- The file cannot have been put over the directory that the name leads to.
    by_cases hq : place = q ++ [name]
    · subst hq
      cases hn : t.node? (q ++ [name]) with
      | none => simp [hn] at h
      | some n =>
        cases n with
        | directory => exact (hplace hn).elim
        | file os => simp [hn] at h
    · rw [if_neg hq]
      exact h

theorem enter_set_of_end {name : FileName} {s : Spot} (h : t.enter q name = .ok s)
    (hspot : ∀ r, s ≠ .directory r) (octets : List UInt8) :
    (t.set s.place (.file octets)).enter q name = .ok (.file s.place octets) := by
  have hplace := node?_place_ne (enter_spec h).2 hspot
  have hne : s.place ≠ [] := ne_nil_of_node? hplace
  have hnext : s.place = Path.next q name := (enter_spec h).1
  unfold Path.next at hnext
  unfold enter at h ⊢
  split_ifs at h hnext ⊢ with hidle hup hlong
  · cases h; exact (hspot _ rfl).elim
  · cases h; exact (hspot _ rfl).elim
  · simp only [← hnext, node?_set t _ _ _ hne, if_pos]

/-- A file put where a walk has ended is found by this walk. -/
theorem walk_set {s : Spot} (h : t.walk q p = .ok s) (hspot : ∀ r, s ≠ .directory r)
    (octets : List UInt8) :
    (t.set s.place (.file octets)).walk q p = .ok (.file s.place octets) := by
  induction p generalizing q with
  | nil => cases h; exact (hspot q rfl).elim
  | cons name p ih =>
    rcases walk_cons h with ⟨next, he, hw⟩ | ⟨he, rfl⟩
    · have hplace := node?_place_ne (walk_spec hw).2 hspot
      rw [walk, enter_set_of_directory he hplace]
      exact ih hw
    · rw [walk, enter_set_of_end he hspot]
      rfl

/-- Creating directories neither adds nor takes a file. -/
theorem node?_createFrom (t : FileTree) (q : Place) (p : Path) (octets : List UInt8) :
    (t.createFrom q p).2.node? r = some (.file octets) ↔ t.node? r = some (.file octets) := by
  induction p generalizing t q with
  | nil => rfl
  | cons name p ih =>
    rw [createFrom]
    cases he : t.enter q name with
    | error f => rfl
    | ok s =>
      cases s with
      | directory next => exact ih t next
      | file next os => rfl
      | vacant next =>
        have hfree : t.node? next = none := (enter_spec he).2
        have hne : next ≠ [] := ne_nil_of_node? (t := t) (by simp [hfree])
        rw [ih, node?_set t next r .directory hne]
        by_cases hr : next = r
        · subst hr; simp [hfree]
        · rw [if_neg hr]

/-- A new directory stands in nobody's way. -/
theorem enter_set_directory {name : FileName} {s : Spot} (hfree : t.node? r = none)
    (h : t.enter q name = .ok s) (hs : ∀ p, s ≠ .vacant p) :
    (t.set r .directory).enter q name = .ok s := by
  have hne : r ≠ [] := ne_nil_of_node? (t := t) (by simp [hfree])
  unfold enter at h ⊢
  split_ifs at h ⊢ with hidle hup hlong
  · exact h
  · exact h
  · simp only [node?_set t r (q ++ [name]) _ hne]
    by_cases hr : r = q ++ [name]
    · rw [hr] at hfree
      simp only [hfree] at h
      cases h
      exact (hs _ rfl).elim
    · rw [if_neg hr]
      exact h

theorem walk_set_directory {s : Spot} (hfree : t.node? r = none) (h : t.walk q p = .ok s)
    (hs : ∀ p, s ≠ .vacant p) : (t.set r .directory).walk q p = .ok s := by
  induction p generalizing q with
  | nil => exact h
  | cons name p ih =>
    rcases walk_cons h with ⟨next, he, hw⟩ | ⟨he, rfl⟩
    · rw [walk, enter_set_directory hfree he (by simp)]
      exact ih hw
    · rw [walk, enter_set_directory hfree he hs]
      cases s with
      | vacant q => exact (hs q rfl).elim
      | _ => rfl

/-- What a walk arrives at, it still arrives at when directories have been created. -/
theorem walk_createFrom {s : Spot} (h : t.walk q p = .ok s) (hs : ∀ p, s ≠ .vacant p) (r : Place)
    (path : Path) : (t.createFrom r path).2.walk q p = .ok s := by
  induction path generalizing t r with
  | nil => exact h
  | cons name path ih =>
    rw [createFrom]
    cases he : t.enter r name with
    | error f => exact h
    | ok spot =>
      cases spot with
      | directory next => exact ih h next
      | file next octets => exact h
      | vacant next => exact ih (walk_set_directory (enter_spec he).2 h hs) next

theorem here_createFrom (t : FileTree) (q : Place) (p : Path) :
    (t.createFrom q p).2.here = t.here := by
  induction p generalizing t q with
  | nil => rfl
  | cons name p ih =>
    rw [createFrom]
    cases t.enter q name with
    | error f => rfl
    | ok s =>
      cases s with
      | directory next => exact ih t next
      | file next os => rfl
      | vacant next => exact (ih _ next).trans (here_set t next .directory)

/-! ## What is filed under a path -/

/-- The file at the place that a path leads to. -/
def filed? (t : FileTree) (p : Path) : Option (List UInt8) :=
  match t.node? (Path.place (t.start p) p) with
  | some (.file octets) => some octets
  | some .directory | none => none

theorem filed?_eq_some_iff {octets : List UInt8} :
    t.filed? p = some octets ↔ t.node? (Path.place (t.start p) p) = some (.file octets) := by
  unfold filed?
  split <;> simp_all

theorem filed?_createAll (t : FileTree) (r p : Path) :
    (t.createAll r).2.filed? p = t.filed? p := by
  rw [createAll]
  cases r.fault? with
  | some f => rfl
  | none =>
    refine Option.ext fun octets ↦ ?_
    change (t.createFrom (t.start r) r).2.filed? p = _ ↔ _
    have hstart : (t.createFrom (t.start r) r).2.start p = t.start p := by
      simp only [start, here_createFrom]
    rw [filed?_eq_some_iff, filed?_eq_some_iff, hstart, node?_createFrom]

theorem locate_eq_ok {s : Spot} (h : t.locate p = .ok s) :
    p.fault? = none ∧ t.walk (t.start p) p = .ok s := by
  rw [locate] at h
  cases hf : p.fault? with
  | some f => simp [hf] at h
  | none => exact ⟨rfl, by simpa [hf] using h⟩

theorem locate_createAll {s : Spot} (h : t.locate p = .ok s) (hs : ∀ q, s ≠ .vacant q)
    (r : Path) : (t.createAll r).2.locate p = .ok s := by
  obtain ⟨hfault, hwalk⟩ := locate_eq_ok h
  rw [createAll]
  cases r.fault? with
  | some f => exact h
  | none =>
    have hstart : (t.createFrom (t.start r) r).2.start p = t.start p := by
      simp only [start, here_createFrom]
    change (t.createFrom (t.start r) r).2.locate p = _
    rw [locate, hfault, hstart]
    exact walk_createFrom hwalk hs _ _

theorem filed?_of_locate_file {octets : List UInt8} (h : t.locate p = .ok (.file q octets)) :
    t.filed? p = some octets := by
  obtain ⟨hplace, hstands⟩ := walk_spec (locate_eq_ok h).2
  rw [filed?_eq_some_iff, ← hplace]
  exact hstands

theorem filed?_of_locate_vacant (h : t.locate p = .ok (.vacant q)) : t.filed? p = none := by
  obtain ⟨hplace, hstands⟩ := walk_spec (locate_eq_ok h).2
  have hq : t.node? (Path.place (t.start p) p) = none := hplace ▸ hstands
  simp [filed?, hq]

theorem locate_set {s : Spot} (h : t.locate p = .ok s) (hspot : ∀ r, s ≠ .directory r)
    (octets : List UInt8) :
    (t.set s.place (.file octets)).locate p = .ok (.file s.place octets) := by
  obtain ⟨hfault, hwalk⟩ := locate_eq_ok h
  rw [locate, hfault]
  exact walk_set hwalk hspot octets

/-- Octets that have been appended are found behind what was filed under the path. -/
theorem locate_of_append {t' : FileTree} {octets : List UInt8} (h : t.append p octets = .ok t') :
    ∃ q, t'.locate p = .ok (.file q ((t.filed? p).getD [] ++ octets)) := by
  rw [append, update] at h
  cases hl : t.locate p with
  | error f => simp [hl] at h
  | ok s =>
    cases s with
    | directory q => simp [hl] at h
    | file q os =>
      obtain rfl : t.set q (.file (os ++ octets)) = t' := by simpa [hl] using h
      rw [filed?_of_locate_file hl]
      exact ⟨q, locate_set hl (by simp) _⟩
    | vacant q =>
      obtain rfl : t.set q (.file ([] ++ octets)) = t' := by simpa [hl] using h
      rw [filed?_of_locate_vacant hl]
      exact ⟨q, locate_set hl (by simp) _⟩

end FileTree

/-! ## What is filed under a key -/

namespace Directory

def filed? (d : Directory) (key : String) : Option (List UInt8) :=
  match d.path key with
  | .ok p => d.files.filed? p
  | .error _ => none

/-- Whether an append fails does not depend on the octets.  If it fails, directories may have been
created. -/
theorem append_eq_error {d d' : Directory} {key : String} {octets : List UInt8} {f : StorageFault}
    (h : d.append key octets = (.error f, d')) :
    (d' = d ∨ ∃ p, d' = { d with files := (d.files.createAll p).2 }) ∧
      ∀ others, d.append key others = (.error f, d') := by
  rw [append, update] at h
  simp only [append, update]
  cases hp : d.path key with
  | error g =>
    obtain ⟨hf, rfl⟩ := Prod.mk.inj (show _ = _ by simpa only [hp] using h)
    exact ⟨.inl rfl, fun _ ↦ congrArg (·, d) hf⟩
  | ok p =>
    simp only [hp] at h ⊢
    generalize hmade : d.files.createAll p.parent = made at h
    obtain ⟨done, files⟩ := made
    have hfiles : files = (d.files.createAll p.parent).2 := by rw [hmade]
    cases done with
    | error g =>
      obtain ⟨hf, rfl⟩ := Prod.mk.inj h
      exact ⟨.inr ⟨_, by rw [hfiles]⟩, fun _ ↦ congrArg (·, _) hf⟩
    | ok u =>
      simp only [FileTree.append, FileTree.update] at h ⊢
      cases hl : files.locate p with
      | error g =>
        simp only [hl] at h ⊢
        obtain ⟨hf, rfl⟩ := Prod.mk.inj h
        exact ⟨.inr ⟨_, by rw [hfiles]⟩, fun _ ↦ congrArg (·, _) hf⟩
      | ok s =>
        cases s with
        | directory q =>
          simp only [hl] at h ⊢
          obtain ⟨hf, rfl⟩ := Prod.mk.inj h
          exact ⟨.inr ⟨_, by rw [hfiles]⟩, fun _ ↦ congrArg (·, _) hf⟩
        | file q os => simp [hl] at h
        | vacant q => simp [hl] at h

end Directory

namespace Storage

def filed? (s : Storage) (key : String) : Option (List UInt8) :=
  match s with
  | .memory m => m.read key
  | .directory d => d.filed? key

/-- The storage finds octets under a key. -/
structure Keeps (s : Storage) (key : String) (octets : List UInt8) : Prop where
  contains : s.contains key = .ok true
  read : s.read key = .ok (some octets)
  filed : s.filed? key = some octets

theorem keeps_directory {d : Directory} {key : String} {p : Path} {q : Place}
    {octets : List UInt8} (hp : d.path key = .ok p)
    (h : d.files.locate p = .ok (.file q octets)) : (directory d).Keeps key octets where
  contains := by simp [contains, Directory.contains, hp, h]
  read := by simp [read, Directory.read, FileTree.read, hp, h]
  filed := by
    simp only [filed?, Directory.filed?, hp]
    exact FileTree.filed?_of_locate_file h

theorem keeps_memory {m : Memory} {key : String} {octets : List UInt8}
    (h : m.read key = some octets) : (memory m).Keeps key octets where
  contains := by
    have hm : m.cells[key]? = some octets := h
    have hmem : m.cells.contains key = true := by
      rw [Std.TreeMap.contains_eq_isSome_getElem?, hm]
      rfl
    exact congrArg Except.ok hmem
  read := congrArg Except.ok h
  filed := h

/-- What has been appended is kept behind what was filed under the key. -/
theorem keeps_of_append {s s' : Storage} {key : String} {octets : List UInt8}
    (h : s.append key octets = (.ok (), s')) :
    s'.Keeps key ((s.filed? key).getD [] ++ octets) := by
  cases s with
  | memory m =>
    obtain rfl : memory (m.append key octets) = s' := (Prod.mk.inj h).2
    exact keeps_memory (by rw [Memory.read_append, if_pos rfl]; rfl)
  | directory d =>
    obtain ⟨hok, hs⟩ := Prod.mk.inj h
    rw [Directory.append, Directory.update] at hok hs
    cases hp : d.path key with
    | error f => simp [hp] at hok
    | ok p =>
      have hfiled := d.files.filed?_createAll p.parent p
      generalize hmade : d.files.createAll p.parent = made at hfiled
      obtain ⟨done, files⟩ := made
      cases done with
      | error f => simp [hp, hmade] at hok
      | ok u =>
        cases happend : files.append p octets with
        | error f => simp [hp, hmade, happend] at hok
        | ok next =>
          obtain rfl : directory { d with files := next } = s' := by
            simpa [hp, hmade, happend] using hs
          obtain ⟨q, hq⟩ := FileTree.locate_of_append happend
          have hbefore : (directory d).filed? key = files.filed? p := by
            simp only [filed?, Directory.filed?, hp, hfiled]
          rw [hbefore]
          exact keeps_directory (p := p) (q := q) hp hq

/-! ## What a failed append leaves -/

theorem locate_of_keeps {d : Directory} {key : String} {octets : List UInt8}
    (h : (directory d).Keeps key octets) :
    ∃ p q, d.path key = .ok p ∧ d.files.locate p = .ok (.file q octets) := by
  have hread : d.read key = .ok (some octets) := h.read
  rw [Directory.read] at hread
  cases hp : d.path key with
  | error f => simp [hp] at hread
  | ok p =>
    simp only [hp, FileTree.read] at hread
    cases hl : d.files.locate p with
    | error f => cases f <;> simp [hl] at hread
    | ok s =>
      cases s with
      | directory q => simp [hl] at hread
      | vacant q => simp [hl] at hread
      | file q os =>
        obtain rfl : os = octets := by simpa [hl] using hread
        exact ⟨p, q, rfl, hl⟩

variable {s s' : Storage} {key : String} {octets : List UInt8} {f : StorageFault}

/-- Only directories fail to append. -/
theorem append_eq_error (h : s.append key octets = (.error f, s')) :
    ∃ d d', s = directory d ∧ s' = directory d' ∧ d.append key octets = (.error f, d') := by
  cases s with
  | memory m => cases h
  | directory d =>
    obtain ⟨hf, hs⟩ := Prod.mk.inj h
    exact ⟨d, _, rfl, hs.symm, Prod.ext hf rfl⟩

/-- Whether an append fails, and what it leaves then, does not depend on the octets. -/
theorem append_of_append_eq_error (h : s.append key octets = (.error f, s'))
    (others : List UInt8) : s.append key others = (.error f, s') := by
  obtain ⟨d, d', rfl, rfl, hd⟩ := append_eq_error h
  simp only [append, (Directory.append_eq_error hd).2 others]

/-- A failed append changes no octets. -/
theorem filed?_of_append_eq_error (h : s.append key octets = (.error f, s')) (k : String) :
    s'.filed? k = s.filed? k := by
  obtain ⟨d, d', rfl, rfl, hd⟩ := append_eq_error h
  rcases (Directory.append_eq_error hd).1 with rfl | ⟨r, rfl⟩
  · rfl
  · cases hp : d.path k with
    | error g =>
      have hp' : Directory.path { d with files := (d.files.createAll r).2 } k = .error g := hp
      simp only [filed?, Directory.filed?, hp, hp']
    | ok p =>
      have hp' : Directory.path { d with files := (d.files.createAll r).2 } k = .ok p := hp
      simp only [filed?, Directory.filed?, hp, hp', FileTree.filed?_createAll]

/-- What a storage finds under a key, it still finds behind a failed append. -/
theorem Keeps.of_append_eq_error {k : String} {os : List UInt8} (hk : s.Keeps k os)
    (h : s.append key octets = (.error f, s')) : s'.Keeps k os := by
  obtain ⟨d, d', rfl, rfl, hd⟩ := append_eq_error h
  rcases (Directory.append_eq_error hd).1 with rfl | ⟨r, rfl⟩
  · exact hk
  · obtain ⟨p, q, hp, hl⟩ := locate_of_keeps hk
    exact keeps_directory (p := p) (q := q) hp (FileTree.locate_createAll hl (by simp) r)

/-- A key that the storage has is kept with some octets. -/
theorem keeps_of_contains {s : Storage} {key : String} (h : s.contains key = .ok true) :
    ∃ octets, s.Keeps key octets := by
  cases s with
  | memory m =>
    have hm : m.cells.contains key = true := Except.ok.inj h
    rw [Std.TreeMap.contains_eq_isSome_getElem?] at hm
    obtain ⟨octets, ho⟩ := Option.isSome_iff_exists.mp hm
    exact ⟨octets, keeps_memory ho⟩
  | directory d =>
    rw [contains, Directory.contains] at h
    cases hp : d.path key with
    | error f => simp [hp] at h
    | ok p =>
      cases hl : d.files.locate p with
      | error f => cases f <;> simp [hp, hl] at h
      | ok s =>
        cases s with
        | file q octets => exact ⟨octets, keeps_directory hp hl⟩
        | directory q => simp [hp, hl] at h
        | vacant q => simp [hp, hl] at h

end Storage

/-! ## What an access finds -/

namespace Access

/-- The access lets calls through that ask for a key and read it. -/
structure Reads (a : Access) : Prop where
  check : .check ∉ a.refused
  read : .read ∉ a.refused

/-- The access finds octets under a key. -/
structure Finds (a : Access) (key : String) (octets : List UInt8) : Prop where
  contains : a.contains key = .ok true
  read : a.read key = .ok (some octets)

variable {a a' : Access} {key : String} {octets : List UInt8}

theorem Reads.contains_eq (h : a.Reads) : a.contains key = a.storage.contains key := by
  simp [contains, permit, h.check]

theorem Reads.read_eq (h : a.Reads) : a.read key = a.storage.read key := by
  simp [Access.read, permit, h.read]

theorem Reads.finds (h : a.Reads) (hkeeps : a.storage.Keeps key octets) : a.Finds key octets where
  contains := h.contains_eq.trans hkeeps.contains
  read := h.read_eq.trans hkeeps.read

theorem check_notMem_of_contains {b : Bool} (h : a.contains key = .ok b) :
    .check ∉ a.refused := by
  intro hmem
  simp [contains, permit, hmem] at h

theorem read_notMem_of_read {o : Option (List UInt8)} (h : a.read key = .ok o) :
    .read ∉ a.refused := by
  intro hmem
  simp [Access.read, permit, hmem] at h

/-- A failed append changes no octets.  The access is as before, unless the storage itself has
failed, and the octets that were to be appended make no difference. -/
theorem append_eq_error {f : StorageFault} (h : a.append key octets = (.error f, a')) :
    (a' = a ∨ .append ∉ a.refused ∧ a.storage.append key octets = (.error f, a'.storage)) ∧
      (∀ k, a'.storage.filed? k = a.storage.filed? k) ∧
      (∀ k os, a.storage.Keeps k os → a'.storage.Keeps k os) ∧
      ∀ others, a.append key others = (.error f, a') := by
  rw [append] at h
  cases hp : a.permit .append key with
  | error g =>
    obtain ⟨hf, rfl⟩ := Prod.mk.inj (show _ = _ by simpa only [hp] using h)
    refine ⟨.inl rfl, fun _ ↦ rfl, fun _ _ hk ↦ hk, fun others ↦ ?_⟩
    rw [append, hp, hf]
  | ok u =>
    have hpermit : .append ∉ a.refused := by
      intro hmem
      simp [permit, hmem] at hp
    obtain ⟨hf, rfl⟩ := Prod.mk.inj (show _ = _ by simpa only [hp] using h)
    have hs : a.storage.append key octets = (.error f, (a.storage.append key octets).2) :=
      Prod.ext hf rfl
    refine ⟨.inr ⟨hpermit, hs⟩, Storage.filed?_of_append_eq_error hs,
      fun _ _ hk ↦ hk.of_append_eq_error hs, fun others ↦ ?_⟩
    rw [append, hp]
    simp only [Storage.append_of_append_eq_error hs others]

/-- An access that has appended is as before, on a storage that has. -/
theorem append_eq_ok (h : a.append key octets = (.ok (), a')) :
    a'.refused = a.refused ∧ a.storage.append key octets = (.ok (), a'.storage) := by
  rw [append] at h
  cases hp : a.permit .append key with
  | error f => simp [hp] at h
  | ok u =>
    obtain ⟨hok, rfl⟩ := Prod.mk.inj (show _ = _ by simpa only [hp] using h)
    exact ⟨rfl, Prod.ext hok rfl⟩

theorem Reads.of_append (hr : a.Reads) (h : a.append key octets = (.ok (), a')) : a'.Reads := by
  obtain ⟨hrefused, -⟩ := append_eq_ok h
  exact ⟨hrefused ▸ hr.check, hrefused ▸ hr.read⟩

end Access

end TripleIndex
