import TripleIndex.Proofs.Mirror

/-!
# Keys that stand for one thing

In a memory every key stands for itself.  In a directory a key is a path, and names that stay where
they are make no difference to where it leads: keys with the same other names are aliases of one
another (`Storage.Alias`).

An append changes what is filed under a key and its aliases, and nothing else
(`Storage.filed?_of_append`).
-/

namespace TripleIndex

namespace Path

/-- The names of a path that do not stay where they are. -/
def names (p : Path) : Path := p.filter fun name ↦ !isIdle name

/-- A path that never leads up leads down by its names. -/
theorem place_eq_append {p : Path} (h : ∀ name ∈ p, isUp name = false) (q : Place) :
    place q p = q ++ p.names := by
  induction p generalizing q with
  | nil => exact (List.append_nil q).symm
  | cons name p ih =>
    have hrest : ∀ m ∈ p, isUp m = false := fun m hm ↦ h m (List.mem_cons_of_mem name hm)
    rw [place_cons, ih hrest, names, names, next, h name List.mem_cons_self]
    by_cases hidle : isIdle name = true
    · simp [hidle]
    · simp [hidle]

end Path

namespace FileTree

variable {t t' : FileTree} {p r : Path}

theorem filed?_set {q : Place} (hq : q ≠ []) (octets : List UInt8)
    (hr : Path.place (t.start r) r ≠ q) : (t.set q (.file octets)).filed? r = t.filed? r := by
  have hstart : (t.set q (.file octets)).start r = t.start r := rfl
  rw [filed?, filed?, hstart, node?_set t _ _ _ hq, if_neg (Ne.symm hr)]

/-- A change of one file puts a file where the path has led to one or to nothing. -/
theorem exists_set_of_update {change : List UInt8 → List UInt8} (h : t.update p change = .ok t') :
    ∃ s octets, t.locate p = .ok s ∧ (∀ q, s ≠ .directory q) ∧
      t' = t.set s.place (.file octets) := by
  rw [update] at h
  cases hl : t.locate p with
  | error f => simp [hl] at h
  | ok s =>
    cases s with
    | directory q => simp [hl] at h
    | file q octets =>
      obtain rfl : t.set q (.file (change octets)) = t' := by simpa [hl] using h
      exact ⟨_, change octets, rfl, by simp, rfl⟩
    | vacant q =>
      obtain rfl : t.set q (.file (change [])) = t' := by simpa [hl] using h
      exact ⟨_, change [], rfl, by simp, rfl⟩

/-- A change of one file leaves those alone that stand at other places. -/
theorem filed?_of_update {change : List UInt8 → List UInt8} (h : t.update p change = .ok t')
    (hr : Path.place (t.start r) r ≠ Path.place (t.start p) p) : t'.filed? r = t.filed? r := by
  obtain ⟨s, octets, hl, hs, rfl⟩ := exists_set_of_update h
  obtain ⟨hplace, hstands⟩ := walk_spec (locate_eq_ok hl).2
  rw [← hplace] at hr
  exact filed?_set (ne_nil_of_node? (node?_place_ne hstands hs)) octets hr

theorem start_createAll (t : FileTree) (p r : Path) : (t.createAll p).2.start r = t.start r := by
  rw [createAll]
  cases p.fault? with
  | some f => rfl
  | none => exact start_createFrom t _ p r

end FileTree

namespace Directory

variable {d d' : Directory} {key k : String}

/-- A key leads from the root down by its names. -/
theorem place_join (h : isValidKey key = true) :
    Path.place (d.files.start (d.root.join (Path.ofString key))) (d.root.join (Path.ofString key)) =
      d.base ++ (Path.ofString key).names := by
  rw [start_join h, Path.join_eq, Path.place_append, Path.place_stem,
    Path.place_eq_append (isValidKey_iff.mp h).2, base]

theorem path_eq_ok_iff {p : Path} :
    d.path key = .ok p ↔ isValidKey key = true ∧ d.root.join (Path.ofString key) = p := by
  rw [path]
  split <;> simp_all

/-- A change under a key that succeeds changes one file after directories have been created. -/
theorem exists_of_update {action : FileAction} {change : List UInt8 → List UInt8}
    (h : d.update action key (fun t p ↦ t.update p change) = (.ok (), d')) :
    isValidKey key = true ∧ ∃ t t',
      d.files.createAll (d.root.join (Path.ofString key)).parent = (.ok (), t) ∧
        t.update (d.root.join (Path.ofString key)) change = .ok t' ∧
          d' = { d with files := t' } := by
  rw [update] at h
  cases hp : d.path key with
  | error f => simp [hp] at h
  | ok p =>
    obtain ⟨hvalid, rfl⟩ := path_eq_ok_iff.mp hp
    simp only [hp] at h
    generalize hmade : d.files.createAll (d.root.join (Path.ofString key)).parent = made at h
    obtain ⟨done, t⟩ := made
    cases done with
    | error f => simp at h
    | ok u =>
      cases hchange : t.update (d.root.join (Path.ofString key)) change with
      | error f => simp [hchange] at h
      | ok t' => exact ⟨hvalid, t, t', rfl, hchange, by simpa [hchange] using h.symm⟩

/-- A change under one key leaves the keys with other names alone. -/
theorem filed?_of_update {action : FileAction} {change : List UInt8 → List UInt8}
    (h : d.update action key (fun t p ↦ t.update p change) = (.ok (), d'))
    (hk : (Path.ofString k).names ≠ (Path.ofString key).names) : d'.filed? k = d.filed? k := by
  obtain ⟨hkey, t, t', hmade, hchange, rfl⟩ := exists_of_update h
  have hcreated (r : Path) : t.filed? r = d.files.filed? r := by
    have hfiled := d.files.filed?_createAll (d.root.join (Path.ofString key)).parent r
    rwa [hmade] at hfiled
  have hstart (r : Path) : t.start r = d.files.start r := by
    have hsame := d.files.start_createAll (d.root.join (Path.ofString key)).parent r
    rwa [hmade] at hsame
  cases hpk : d.path k with
  | error f =>
    have hpk' : path { d with files := t' } k = .error f := hpk
    rw [filed?, filed?, hpk, hpk']
  | ok r =>
    have hpk' : path { d with files := t' } k = .ok r := hpk
    obtain ⟨hvalid, rfl⟩ := path_eq_ok_iff.mp hpk
    simp only [filed?, hpk, hpk']
    rw [FileTree.filed?_of_update hchange, hcreated]
    rw [hstart, hstart, place_join hvalid, place_join hkey]
    intro hplace
    exact hk (List.append_cancel_left hplace)

end Directory

namespace Storage

variable {s s' : Storage} {key k : String} {octets : List UInt8}

/-- Keys that stand for one thing, whatever is stored. -/
def Alias (s : Storage) (k l : String) : Prop :=
  match s with
  | memory _ => k = l
  | directory _ => (Path.ofString k).names = (Path.ofString l).names

/-- An append leaves everything alone that is not filed under an alias of its key. -/
theorem filed?_of_append (h : s.append key octets = (.ok (), s')) (hk : ¬ s.Alias k key) :
    s'.filed? k = s.filed? k := by
  cases s with
  | memory m =>
    obtain rfl : memory (m.append key octets) = s' := (Prod.mk.inj h).2
    have hne : key ≠ k := fun heq ↦ hk heq.symm
    rw [filed?, filed?, Memory.read_append, if_neg hne]
  | directory d =>
    obtain ⟨hok, rfl⟩ := Prod.mk.inj h
    exact Directory.filed?_of_update (Prod.ext hok rfl) hk

end Storage

end TripleIndex
