import TripleIndex.Proofs.Storage
import Mathlib.Data.List.DropRight
import Mathlib.Data.List.Flatten
import Mathlib.Tactic.Common

/-!
# Paths that go on

A path that goes on behind another one is walked, and directories are created along it, from where
the first path leads to.  What a key names below a root is of this kind: the path of the root
without a slash at its end (`Path.stem`), and the names of the key behind it.
-/

namespace TripleIndex

/-! ## Texts of paths -/

namespace Path

theorem toString_ofString (s : String) : toString (ofString s) = s := by
  rw [toString, text, ofString, ofText, List.intercalate_splitOn, String.ofList_toList]

theorem ofString_injective : Function.Injective ofString := by
  intro s s' h
  rw [← toString_ofString s, h, toString_ofString]

theorem ofString_ne_nil (s : String) : ofString s ≠ [] := List.splitOn_ne_nil _ _

theorem text_cons {name : FileName} {p : Path} (hp : p ≠ []) :
    text (name :: p) = name ++ '/' :: text p := by
  rw [text, List.intercalate_cons_of_ne_nil hp, List.append_assoc]
  rfl

/-- The empty path stays where it is. -/
theorem isIdle_of_text_eq_nil {p : Path} (h : p.text = []) : ∀ name ∈ p, isIdle name := by
  cases p with
  | nil => simp
  | cons name p =>
    by_cases hp : p = []
    · subst hp
      rw [text, List.intercalate_singleton] at h
      simp [h, isIdle]
    · simp [text_cons hp] at h

/-- Leaving names out leaves octets out. -/
theorem sublist_text {p q : Path} (h : p.Sublist q) : p.text.Sublist q.text := by
  induction h with
  | slnil => exact .slnil
  | @cons p q name h ih =>
    by_cases hq : q = []
    · subst hq
      rw [List.sublist_nil.mp h]
      exact List.nil_sublist _
    · rw [text_cons hq]
      exact (ih.cons '/').trans (List.sublist_append_right name _)
  | @cons_cons p q name h ih =>
    by_cases hq : q = []
    · subst hq
      rw [List.sublist_nil.mp h]
    · rw [text_cons hq]
      by_cases hp : p = []
      · subst hp
        rw [text, List.intercalate_singleton]
        exact List.sublist_append_left name _
      · rw [text_cons hp]
        exact (ih.cons_cons '/').append_left name

theorem octetCount_le {cs ds : List Char} (h : cs.Sublist ds) : octetCount cs ≤ octetCount ds :=
  (h.flatMap String.utf8EncodeChar).length_le

theorem fault?_eq_none_iff {p : Path} :
    p.fault? = none ↔ (∀ name ∈ p, '\x00' ∉ name) ∧ octetCount p.text ≤ limit := by
  rw [fault?]
  split
  · rename_i h
    simp only [List.any_eq_true, List.contains_iff_mem] at h
    obtain ⟨name, hname, hnul⟩ := h
    simp only [reduceCtorEq, false_iff, not_and]
    exact fun hall ↦ (hall name hname hnul).elim
  · rename_i h
    simp only [List.any_eq_true, List.contains_iff_mem, not_exists, not_and] at h
    split
    · simp only [reduceCtorEq, false_iff, not_and]
      omega
    · simp only [true_iff]
      exact ⟨h, by omega⟩

/-- Leaving names out of a path does not keep it from being looked up. -/
theorem fault?_of_sublist {p q : Path} (h : p.Sublist q) (hq : q.fault? = none) :
    p.fault? = none := by
  rw [fault?_eq_none_iff] at hq ⊢
  exact ⟨fun name hname ↦ hq.1 name (h.subset hname),
    (octetCount_le (sublist_text h)).trans hq.2⟩

/-! ## Roots and what is joined to them -/

/-- A path without the slash at its end. -/
def stem (p : Path) : Path := if p.getLast? = some [] then p.dropLast else p

theorem join_eq (p q : Path) : p.join q = p.stem ++ q := by
  rw [join, stem]
  split <;> rfl

theorem eq_stem_append (p : Path) : ∃ idles, p = p.stem ++ idles ∧ ∀ name ∈ idles, isIdle name := by
  rw [stem]
  split
  · rename_i h
    refine ⟨[[]], ?_, by simp [isIdle]⟩
    conv_lhs => rw [← List.dropLast_append_getLast? _ h]
  · exact ⟨[], by simp, by simp⟩

theorem sublist_stem (p : Path) : p.stem.Sublist p := by
  rw [stem]
  split
  · exact List.dropLast_sublist p
  · exact List.Sublist.refl p

/-- A slash at the end of a path begins what is joined to it. -/
theorem isPrefix_text_append {r : Path} (hr : r ≠ []) (p : Path) :
    text (p ++ [[]]) <+: text (p ++ r) := by
  induction p with
  | nil => exact List.nil_prefix
  | cons name p ih =>
    rw [List.cons_append, List.cons_append, text_cons (by simp), text_cons (by simp [hr])]
    exact (List.prefix_append_right_inj _).mpr ((List.prefix_append_right_inj ['/']).mpr ih)

/-- What can be looked up below a root is behind a root that can be looked up. -/
theorem fault?_of_join {p r : Path} (hr : r ≠ []) (h : (p.join r).fault? = none) :
    p.fault? = none := by
  rw [join_eq] at h
  by_cases hlast : p.getLast? = some []
  · have hp : p = p.stem ++ [[]] := by
      rw [stem, if_pos hlast]
      exact (List.dropLast_append_getLast? _ hlast).symm
    rw [fault?_eq_none_iff] at h ⊢
    rw [hp]
    refine ⟨fun name hname ↦ ?_, (octetCount_le (isPrefix_text_append hr _).sublist).trans h.2⟩
    rcases List.mem_append.mp hname with hname | hname
    · exact h.1 name (List.mem_append_left r hname)
    · simp [List.mem_singleton.mp hname]
  · rw [stem, if_neg hlast] at h
    exact fault?_of_sublist (List.sublist_append_left p r) h

theorem isAbsolute_join {p : Path} {name : FileName} {q : Path} (h : name ≠ []) :
    (p.join (name :: q)).isAbsolute = p.isAbsolute := by
  rcases p with _ | ⟨x, _ | ⟨y, p⟩⟩
  · cases name <;> simp_all [join, isAbsolute]
  · by_cases hx : x = []
    · subst hx
      cases name <;> simp_all [join, isAbsolute]
    · cases x <;> simp_all [join, isAbsolute]
  · -- A longer path keeps its first name, and something comes behind it.
    have htail : ∃ z r, join (x :: y :: p) (name :: q) = x :: z :: r := by
      rw [join]
      split
      · cases p with
        | nil => exact ⟨name, q, rfl⟩
        | cons m p => exact ⟨y, _, rfl⟩
      · exact ⟨y, _, rfl⟩
    obtain ⟨z, r, hjoin⟩ := htail
    rw [hjoin]
    cases x <;> rfl

theorem isPrefix_trim (p : Path) : p.trim <+: p := List.rdropWhile_prefix _ _

theorem trim_concat {p : Path} {name : FileName} (h : isIdle name = false) :
    trim (p ++ [name]) = p ++ [name] :=
  List.rdropWhile_concat_neg _ _ _ (by simp [h])

theorem parent_concat {p : Path} {name : FileName} (h : isIdle name = false) :
    parent (p ++ [name]) = p.trim := by
  rw [parent, trim_concat h, List.dropLast_concat]

/-- The first names of a path tell whether it is absolute. -/
theorem isAbsolute_of_prefix {p r : Path} (h : p <+: r) (hp : p ≠ []) (hslash : p ≠ [[]]) :
    p.isAbsolute = r.isAbsolute := by
  obtain ⟨rest, rfl⟩ := h
  rcases p with _ | ⟨x, _ | ⟨y, p⟩⟩
  · exact (hp rfl).elim
  · cases x with
    | nil => exact (hslash rfl).elim
    | cons c x => rfl
  · cases x <;> rfl

theorem trim_ne_slash (p : Path) : p.trim ≠ [[]] := by
  intro h
  have hne : p.rdropWhile isIdle ≠ [] := by
    intro hnil
    rw [show p.trim = [] from hnil] at h
    cases h
  have hlast := List.rdropWhile_last_not isIdle p hne
  refine hlast ?_
  have heq : p.rdropWhile isIdle = [[]] := h
  simp [heq, isIdle]

theorem eq_trim_append (p : Path) : ∃ idles, p = p.trim ++ idles ∧ ∀ name ∈ idles, isIdle name := by
  refine ⟨p.rtakeWhile isIdle, ?_, fun name hname ↦ List.mem_rtakeWhile_imp hname⟩
  have hsplit := congrArg List.reverse
    (List.takeWhile_append_dropWhile (p := isIdle) (l := p.reverse))
  rw [List.reverse_append, List.reverse_reverse] at hsplit
  exact hsplit.symm

/-! ## Places -/

theorem place_cons (q : Place) (name : FileName) (p : Path) :
    place q (name :: p) = place (next q name) p := rfl

theorem next_of_isIdle {name : FileName} (h : isIdle name) (q : Place) : next q name = q := if_pos h

theorem place_append (q : Place) (p r : Path) : place q (p ++ r) = place (place q p) r :=
  List.foldl_append

theorem place_of_isIdle {p : Path} (h : ∀ name ∈ p, isIdle name) (q : Place) : place q p = q := by
  induction p with
  | nil => rfl
  | cons name p ih =>
    rw [place_cons, next_of_isIdle (h name List.mem_cons_self)]
    exact ih fun m hm ↦ h m (List.mem_cons_of_mem name hm)

theorem place_stem (q : Place) (p : Path) : place q p.stem = place q p := by
  obtain ⟨idles, hp, hidle⟩ := eq_stem_append p
  conv_rhs => rw [hp, place_append, place_of_isIdle hidle]

end Path

namespace FileTree

variable {t : FileTree} {q r : Place} {p : Path} {name : FileName}

/-! ## Walking on and creating further -/

theorem walk_append (h : t.walk q p = .ok (.directory r)) (path : Path) :
    t.walk q (p ++ path) = t.walk r path := by
  induction p generalizing q with
  | nil => cases h; rfl
  | cons name p ih =>
    rcases walk_cons h with ⟨next, he, hw⟩ | ⟨he, rfl⟩
    · rw [List.cons_append, walk, he]
      exact ih hw
    · cases h' : path <;> simp [walk, he]

theorem start_createFrom (t : FileTree) (q : Place) (p r : Path) :
    (t.createFrom q p).2.start r = t.start r := by
  rw [start, start, here_createFrom]

/-- Creating the directory of one more name goes on from where the name leads. -/
theorem createFrom_cons (h : (t.createFrom q (name :: p)).1 = .ok ()) :
    (t.enter q name = .ok (.directory (Path.next q name)) ∧
        t.createFrom q (name :: p) = t.createFrom (Path.next q name) p) ∨
      (t.enter q name = .ok (.vacant (Path.next q name)) ∧
        t.createFrom q (name :: p) =
          (t.set (Path.next q name) .directory).createFrom (Path.next q name) p) := by
  rw [createFrom] at h ⊢
  cases he : t.enter q name with
  | error f => simp [he] at h
  | ok s =>
    have hs := (enter_spec he).1
    cases s with
    | directory next =>
      obtain rfl : next = Path.next q name := hs
      exact .inl ⟨rfl, rfl⟩
    | file next octets => simp [he] at h
    | vacant next =>
      obtain rfl : next = Path.next q name := hs
      exact .inr ⟨rfl, rfl⟩

theorem createFrom_ok_of_append {path : Path} (h : (t.createFrom q (p ++ path)).1 = .ok ()) :
    (t.createFrom q p).1 = .ok () := by
  induction p generalizing t q with
  | nil => rfl
  | cons name p ih =>
    rw [List.cons_append] at h
    rcases createFrom_cons h with ⟨he, hcreate⟩ | ⟨he, hcreate⟩
    · rw [createFrom, he]
      exact ih (hcreate ▸ h)
    · rw [createFrom, he]
      exact ih (hcreate ▸ h)

theorem createFrom_append (h : (t.createFrom q p).1 = .ok ()) (path : Path) :
    t.createFrom q (p ++ path) = (t.createFrom q p).2.createFrom (Path.place q p) path := by
  induction p generalizing t q with
  | nil => rfl
  | cons name p ih =>
    rcases createFrom_cons h with ⟨he, hcreate⟩ | ⟨he, hcreate⟩
    · rw [hcreate] at h ⊢
      rw [List.cons_append, createFrom, he]
      exact ih h
    · rw [hcreate] at h ⊢
      rw [List.cons_append, createFrom, he]
      exact ih h

theorem enter_of_isIdle (h : Path.isIdle name) (t : FileTree) (q : Place) :
    t.enter q name = .ok (.directory q) := if_pos h

theorem createFrom_of_isIdle (h : ∀ name ∈ p, Path.isIdle name) (t : FileTree) (q : Place) :
    t.createFrom q p = (.ok (), t) := by
  induction p with
  | nil => rfl
  | cons name p ih =>
    rw [createFrom, enter_of_isIdle (h name List.mem_cons_self)]
    exact ih fun m hm ↦ h m (List.mem_cons_of_mem name hm)

/-- Idle names at the end of a path add nothing to what is created along it. -/
theorem createFrom_append_isIdle {idles : Path} (h : ∀ name ∈ idles, Path.isIdle name)
    (t : FileTree) (q : Place) (p : Path) : t.createFrom q (p ++ idles) = t.createFrom q p := by
  induction p generalizing t q with
  | nil => exact createFrom_of_isIdle h t q
  | cons name p ih =>
    rw [List.cons_append, createFrom, createFrom]
    cases t.enter q name with
    | error f => rfl
    | ok s =>
      cases s with
      | directory next => exact ih t next
      | file next octets => rfl
      | vacant next => exact ih _ next

theorem createFrom_stem (t : FileTree) (q : Place) (p : Path) :
    t.createFrom q p.stem = t.createFrom q p := by
  obtain ⟨idles, hp, hidle⟩ := Path.eq_stem_append p
  conv_rhs => rw [hp, createFrom_append_isIdle hidle]

/-- Nothing is created along a path that leads to a directory. -/
theorem createFrom_of_walk (h : t.walk q p = .ok (.directory r)) :
    t.createFrom q p = (.ok (), t) := by
  induction p generalizing q with
  | nil => rfl
  | cons name p ih =>
    rcases walk_cons h with ⟨next, he, hw⟩ | ⟨he, rfl⟩
    · rw [createFrom, he]
      exact ih hw
    · rw [createFrom, he]
      rfl

theorem enter_set_of_vacant (h : t.enter q name = .ok (.vacant r)) :
    (t.set r .directory).enter q name = .ok (.directory r) := by
  have hnode : t.node? r = none := (enter_spec h).2
  have hne : r ≠ [] := ne_nil_of_node? (t := t) (by simp [hnode])
  have hnext : r = Path.next q name := (enter_spec h).1
  unfold Path.next at hnext
  unfold enter at h ⊢
  split_ifs at h hnext ⊢ with hidle hup hlong
  · cases h
  · cases h
  · simp only [← hnext, node?_set t _ _ _ hne, if_pos]

/-- A path along which directories have been created leads to a directory. -/
theorem walk_of_createFrom (h : (t.createFrom q p).1 = .ok ()) :
    (t.createFrom q p).2.walk q p = .ok (.directory (Path.place q p)) := by
  induction p generalizing t q with
  | nil => rfl
  | cons name p ih =>
    rcases createFrom_cons h with ⟨he, hcreate⟩ | ⟨he, hcreate⟩
    · rw [hcreate] at h ⊢
      have hfirst : t.walk q [name] = .ok (.directory (Path.next q name)) := by simp [walk, he]
      have hstays := walk_createFrom hfirst (by simp) (Path.next q name) p
      exact (walk_append hstays p).trans (ih h)
    · rw [hcreate] at h ⊢
      have hfirst : (t.set (Path.next q name) .directory).walk q [name] =
          .ok (.directory (Path.next q name)) := by simp [walk, enter_set_of_vacant he]
      have hstays := walk_createFrom hfirst (by simp) (Path.next q name) p
      exact (walk_append hstays p).trans (ih h)

/-- What has been created on the way is not created again. -/
theorem createFrom_again (h : (t.createFrom q p).1 = .ok ()) (path : Path) :
    (t.createFrom q p).2.createFrom q (p ++ path) = t.createFrom q (p ++ path) := by
  have hdone := createFrom_of_walk (walk_of_createFrom h)
  rw [createFrom_append h, createFrom_append (by rw [hdone]), hdone]

/-- Where directories can be created, a path leads to a directory or to nothing, and behind nothing
there is nothing. -/
theorem walk_cases (h : (t.createFrom q p).1 = .ok ()) :
    t.walk q p = .ok (.directory (Path.place q p)) ∨
      ((∃ s, t.walk q p = .ok (.vacant s)) ∨ t.walk q p = .error .absent) ∧
        ∀ path, path ≠ [] → t.walk q (p ++ path) = .error .absent := by
  induction p generalizing t q with
  | nil => exact .inl rfl
  | cons name p ih =>
    rcases createFrom_cons h with ⟨he, hcreate⟩ | ⟨he, hcreate⟩
    · rw [hcreate] at h
      simp only [List.cons_append, walk, he]
      exact ih h
    · refine .inr ⟨?_, fun path hpath ↦ ?_⟩
      · cases p with
        | nil => exact .inl ⟨Path.next q name, by simp [walk, he]⟩
        | cons m p => exact .inr (by simp [walk, he])
      · simp [walk, he, hpath]

theorem walk_of_isIdle {idles : Path} (h : ∀ name ∈ idles, Path.isIdle name) (t : FileTree)
    (q : Place) : t.walk q idles = .ok (.directory q) := by
  induction idles with
  | nil => rfl
  | cons name idles ih =>
    rw [walk, enter_of_isIdle (h name List.mem_cons_self)]
    exact ih fun m hm ↦ h m (List.mem_cons_of_mem name hm)

/-- A slash at the end of a path makes no difference to where it leads. -/
theorem walk_stem (h : (t.createFrom q p).1 = .ok ()) :
    t.walk q p.stem = .ok (.directory (Path.place q p)) ↔
      t.walk q p = .ok (.directory (Path.place q p)) := by
  obtain ⟨idles, hp, hidle⟩ := Path.eq_stem_append p
  constructor
  · intro hw
    conv_lhs => rw [hp]
    exact (walk_append hw idles).trans (walk_of_isIdle hidle t _)
  · intro hw
    rw [← createFrom_stem] at h
    rcases walk_cases h with hstem | ⟨hnone, hrest⟩
    · rw [hstem, Path.place_stem]
    · by_cases hnil : idles = []
      · rw [hnil, List.append_nil] at hp
        rw [hp] at hw
        simp [hw] at hnone
      · rw [hp, hrest idles hnil] at hw
        cases hw

theorem createAll_eq_ok (h : (t.createAll p).1 = .ok ()) :
    p.fault? = none ∧ t.createAll p = t.createFrom (t.start p) p := by
  rw [createAll] at h ⊢
  cases hf : p.fault? with
  | some f => simp [hf] at h
  | none => exact ⟨rfl, rfl⟩

/-- Creating the directories above a path. -/
theorem createAll_parent (hidle : Path.isIdle name = false) (hfault : (p ++ [name]).fault? = none) :
    t.createAll (p ++ [name]).parent = t.createFrom (t.start (p ++ [name])) p := by
  rw [Path.parent_concat hidle]
  have hpre : p.trim <+: p ++ [name] := (Path.isPrefix_trim p).trans (List.prefix_append p _)
  rw [createAll, Path.fault?_of_sublist hpre.sublist hfault]
  obtain ⟨idles, hp, hidles⟩ := Path.eq_trim_append p
  have htrim (q : Place) : t.createFrom q p.trim = t.createFrom q p := by
    conv_rhs => rw [hp, createFrom_append_isIdle hidles]
  by_cases hnil : p.trim = []
  · change t.createFrom _ p.trim = _
    rw [← htrim, hnil]
    rfl
  · change t.createFrom _ p.trim = _
    rw [htrim, start, start, Path.isAbsolute_of_prefix hpre hnil (Path.trim_ne_slash p)]

/-- What creating the directories above a path leaves, whether or not it gets to the end.  Nothing
is created along a path that cannot be looked up. -/
theorem createAll_parent_cases (t : FileTree) (p : Path) :
    (t.createAll p.parent).2 = t ∨ ∃ way : Path, way <+: p ∧ way.fault? = none ∧
      (t.createAll p.parent).2 = (t.createFrom (t.start p) way).2 := by
  have hpre : p.parent <+: p :=
    (Path.isPrefix_trim _).trans ((List.dropLast_prefix _).trans (Path.isPrefix_trim p))
  rw [createAll]
  cases hfault : p.parent.fault? with
  | some f => exact .inl rfl
  | none =>
    by_cases hnil : p.parent = []
    · rw [hnil]
      exact .inl rfl
    · refine .inr ⟨p.parent, hpre, hfault, ?_⟩
      dsimp only
      rw [start, start, Path.isAbsolute_of_prefix hpre hnil (Path.trim_ne_slash _)]

end FileTree

/-! ## Plain names

A name that neither stays, leads up nor is too long stands for what the directory has under it. -/

namespace Path

structure Plain (name : FileName) : Prop where
  moves : isIdle name = false
  down : isUp name = false
  short : octetCount name ≤ nameLimit

instance : DecidablePred Plain := fun name ↦
  decidable_of_iff (isIdle name = false ∧ isUp name = false ∧ octetCount name ≤ nameLimit)
    ⟨fun h ↦ ⟨h.1, h.2.1, h.2.2⟩, fun h ↦ ⟨h.moves, h.down, h.short⟩⟩

variable {q : Place} {name : FileName} {ns : Path}

theorem Plain.ne_nil (h : Plain name) : name ≠ [] := by
  rintro rfl
  exact absurd h.moves (by simp [isIdle])

theorem Plain.next_eq (h : Plain name) : next q name = q ++ [name] := by
  simp [next, h.moves, h.down]

theorem plain_of_append {ms : Path} (h : ∀ name ∈ ns ++ ms, Plain name) : ∀ name ∈ ns, Plain name :=
  fun name hname ↦ h name (List.mem_append_left ms hname)

end Path

/-- What a place is found to be by the node that stands there. -/
def Spot.ofNode (place : Place) : Option Node → Spot
  | none => .vacant place
  | some .directory => .directory place
  | some (.file octets) => .file place octets

namespace FileTree

variable {t : FileTree} {q r : Place} {name : FileName} {ns : Path}

theorem enter_plain (h : Path.Plain name) :
    t.enter q name = .ok (.ofNode (q ++ [name]) (t.node? (q ++ [name]))) := by
  rw [enter, if_neg (by simp [h.moves]), if_neg (by simp [h.down]),
    if_neg (Nat.not_lt.mpr h.short)]
  dsimp only
  cases t.node? (q ++ [name]) with
  | none => rfl
  | some n => cases n <;> rfl

/-- A new file stands in nobody's way to a directory. -/
theorem walk_set_of_directory {p : Path} (h : t.walk q p = .ok (.directory r)) {place : Place}
    (hplace : t.node? place ≠ some .directory) (octets : List UInt8) :
    (t.set place (.file octets)).walk q p = .ok (.directory r) := by
  induction p generalizing q with
  | nil => exact h
  | cons name p ih =>
    rcases walk_cons h with ⟨next, he, hw⟩ | ⟨he, rfl⟩
    · rw [walk, enter_set_of_directory he hplace]
      exact ih hw
    · rw [walk, enter_set_of_directory he hplace]
      rfl

theorem node?_of_enter_directory (h : Path.Plain name)
    (he : t.enter q name = .ok (.directory (q ++ [name]))) :
    t.node? (q ++ [name]) = some .directory := by
  rw [enter_plain h] at he
  cases hn : t.node? (q ++ [name]) with
  | none => simp [hn, Spot.ofNode] at he
  | some n =>
    cases n with
    | directory => rfl
    | file octets => simp [hn, Spot.ofNode] at he

/-- Directories on the way are walked through. -/
theorem walk_plain (hplain : ∀ name ∈ ns, Path.Plain name)
    (hway : ∀ ms, ms ≠ [] → ms <+: ns → t.node? (q ++ ms) = some .directory) :
    t.walk q ns = .ok (.directory (q ++ ns)) := by
  induction ns generalizing q with
  | nil => simp [walk]
  | cons name ns ih =>
    have hfirst : t.node? (q ++ [name]) = some .directory := hway [name] (by simp) (by simp)
    rw [walk, enter_plain (hplain name List.mem_cons_self), hfirst, List.append_cons q name ns]
    refine ih (fun m hm ↦ hplain m (List.mem_cons_of_mem name hm)) fun ms hms hpre ↦ ?_
    rw [← List.append_cons]
    exact hway (name :: ms) (by simp) (by simpa using hpre)

theorem walk_plain_concat (hplain : ∀ m ∈ ns ++ [name], Path.Plain m)
    (hway : ∀ ms, ms ≠ [] → ms <+: ns → t.node? (q ++ ms) = some .directory) :
    t.walk q (ns ++ [name]) =
      .ok (.ofNode (q ++ (ns ++ [name])) (t.node? (q ++ (ns ++ [name])))) := by
  have hns : t.walk q ns = .ok (.directory (q ++ ns)) :=
    walk_plain (fun m hm ↦ hplain m (List.mem_append_left _ hm)) hway
  rw [walk_append hns, walk, enter_plain (hplain name (by simp)), List.append_assoc]
  cases t.node? (q ++ (ns ++ [name])) with
  | none => rfl
  | some n => cases n <;> rfl

/-- Where no file stands in the way and no directory at the end, nothing is found. -/
theorem walk_plain_missing (hplain : ∀ name ∈ ns, Path.Plain name) (hne : ns ≠ [])
    (hway : ∀ ms octets, ms ≠ [] → ms <+: ns → t.node? (q ++ ms) ≠ some (.file octets))
    (hend : t.node? (q ++ ns) ≠ some .directory) :
    (∃ s, t.walk q ns = .ok (.vacant s)) ∨ t.walk q ns = .error .absent := by
  induction ns generalizing q with
  | nil => exact (hne rfl).elim
  | cons name ns ih =>
    rw [walk, enter_plain (hplain name List.mem_cons_self)]
    cases hnode : t.node? (q ++ [name]) with
    | none =>
      cases ns with
      | nil => exact .inl ⟨_, rfl⟩
      | cons m ns => exact .inr rfl
    | some n =>
      cases n with
      | file octets => exact (hway [name] octets (by simp) (by simp) hnode).elim
      | directory =>
        have hns : ns ≠ [] := by
          rintro rfl
          exact hend hnode
        rw [List.append_cons] at hend
        refine ih (fun m hm ↦ hplain m (List.mem_cons_of_mem name hm)) hns ?_ hend
        intro ms octets _ hpre
        rw [← List.append_cons]
        exact hway (name :: ms) octets (by simp) (by simpa using hpre)

theorem createFrom_plain_ok (hplain : ∀ name ∈ ns, Path.Plain name)
    (hway : ∀ ms octets, ms ≠ [] → ms <+: ns → t.node? (q ++ ms) ≠ some (.file octets)) :
    (t.createFrom q ns).1 = .ok () := by
  induction ns generalizing t q with
  | nil => rfl
  | cons name ns ih =>
    have hrest := fun m hm ↦ hplain m (List.mem_cons_of_mem name hm)
    rw [createFrom, enter_plain (hplain name List.mem_cons_self)]
    cases hnode : t.node? (q ++ [name]) with
    | none =>
      refine ih hrest fun ms octets _ hpre ↦ ?_
      rw [node?_set t _ _ _ (by simp)]
      split
      · simp
      · rw [← List.append_cons]
        exact hway (name :: ms) octets (by simp) (by simpa using hpre)
    | some n =>
      cases n with
      | file octets => exact (hway [name] octets (by simp) (by simp) hnode).elim
      | directory =>
        refine ih hrest fun ms octets _ hpre ↦ ?_
        rw [← List.append_cons]
        exact hway (name :: ms) octets (by simp) (by simpa using hpre)

theorem node?_createFrom_of_directory (h : t.node? r = some .directory) (q : Place) (p : Path) :
    (t.createFrom q p).2.node? r = some .directory := by
  induction p generalizing t q with
  | nil => exact h
  | cons name p ih =>
    rw [createFrom]
    cases he : t.enter q name with
    | error f => exact h
    | ok s =>
      cases s with
      | directory next => exact ih h next
      | file next octets => exact h
      | vacant next =>
        have hfree : t.node? next = none := (enter_spec he).2
        have hnext : next ≠ [] := ne_nil_of_node? (t := t) (by simp [hfree])
        refine ih ?_ next
        rw [node?_set t _ _ _ hnext]
        split
        · rfl
        · exact h

/-- The created directories stand under the names on the way. -/
theorem node?_createFrom_plain (hplain : ∀ name ∈ ns, Path.Plain name)
    (hok : (t.createFrom q ns).1 = .ok ()) {ms : Path} (hne : ms ≠ []) (hpre : ms <+: ns) :
    (t.createFrom q ns).2.node? (q ++ ms) = some .directory := by
  induction ns generalizing t q ms with
  | nil => exact (hne (List.prefix_nil.mp hpre)).elim
  | cons name ns ih =>
    have hrest := fun m hm ↦ hplain m (List.mem_cons_of_mem name hm)
    have hnext := (hplain name List.mem_cons_self).next_eq (q := q)
    obtain ⟨t', hfirst, hcreate⟩ : ∃ t' : FileTree, t'.node? (q ++ [name]) = some .directory ∧
        t.createFrom q (name :: ns) = t'.createFrom (q ++ [name]) ns := by
      rcases createFrom_cons hok with ⟨he, hcreate⟩ | ⟨he, hcreate⟩
      · rw [hnext] at he hcreate
        exact ⟨t, node?_of_enter_directory (hplain name List.mem_cons_self) he, hcreate⟩
      · rw [hnext] at hcreate
        exact ⟨_, by rw [node?_set _ _ _ _ (by simp), if_pos rfl], hcreate⟩
    rw [hcreate] at hok ⊢
    cases ms with
    | nil => exact (hne rfl).elim
    | cons m ms =>
      obtain ⟨rfl, hms⟩ := List.cons_prefix_cons.mp hpre
      by_cases hnil : ms = []
      · subst hnil
        exact node?_createFrom_of_directory hfirst _ _
      · rw [List.append_cons q m ms]
        exact ih hrest hok hnil hms

/-- Creating directories along plain names changes no other place. -/
theorem node?_createFrom_of_ne (hplain : ∀ name ∈ ns, Path.Plain name)
    (hr : ∀ ms, ms ≠ [] → ms <+: ns → r ≠ q ++ ms) :
    (t.createFrom q ns).2.node? r = t.node? r := by
  induction ns generalizing t q with
  | nil => rfl
  | cons name ns ih =>
    have hrest (t' : FileTree) : (t'.createFrom (q ++ [name]) ns).2.node? r = t'.node? r := by
      refine ih (fun m hm ↦ hplain m (List.mem_cons_of_mem name hm)) fun ms hms hpre ↦ ?_
      rw [← List.append_cons]
      exact hr (name :: ms) (by simp) (by simpa using hpre)
    have hfirst : r ≠ q ++ [name] := hr [name] (by simp) (by simp)
    rw [createFrom, enter_plain (hplain name List.mem_cons_self)]
    cases t.node? (q ++ [name]) with
    | none =>
      refine (hrest _).trans ?_
      rw [node?_set t _ _ _ (by simp), if_neg hfirst.symm]
    | some n =>
      cases n with
      | file octets => rfl
      | directory => exact hrest t

/-- Directories are created where nothing has stood on the way, and nothing else changes. -/
theorem node?_createFrom_cases (t : FileTree) (q : Place) (p : Path) (r : Place) :
    (t.createFrom q p).2.node? r = t.node? r ∨
      t.node? r = none ∧ (t.createFrom q p).2.node? r = some .directory ∧
        ∃ way, way <+: p ∧ r = Path.place q way := by
  induction p generalizing t q with
  | nil => exact .inl rfl
  | cons name p ih =>
    have hstep (way : Path) (hway : way <+: p) (hr : r = Path.place (Path.next q name) way) :
        ∃ way, way <+: name :: p ∧ r = Path.place q way :=
      ⟨name :: way, by simpa using hway, hr⟩
    rw [createFrom]
    cases he : t.enter q name with
    | error f => exact .inl rfl
    | ok s =>
      obtain ⟨hnext, hstands⟩ := enter_spec he
      cases s with
      | file place octets => exact .inl rfl
      | directory place =>
        obtain rfl : place = Path.next q name := hnext
        rcases ih t (Path.next q name) with hsame | ⟨hfree, hnew, way, hway, hr⟩
        · exact .inl hsame
        · exact .inr ⟨hfree, hnew, hstep way hway hr⟩
      | vacant place =>
        obtain rfl : place = Path.next q name := hnext
        have hfree : t.node? (Path.next q name) = none := hstands
        have hset := node?_set t (Path.next q name) r .directory
          (ne_nil_of_node? (t := t) (by simp [hfree]))
        rcases ih (t.set (Path.next q name) .directory) (Path.next q name) with
          hsame | ⟨hnone, hnew, way, hway, hr⟩
        · by_cases hr : Path.next q name = r
          · rw [hset, if_pos hr] at hsame
            subst hr
            exact .inr ⟨hfree, hsame, [name], by simp, rfl⟩
          · rw [hset, if_neg hr] at hsame
            exact .inl hsame
        · by_cases hr' : Path.next q name = r
          · rw [hset, if_pos hr'] at hnone
            cases hnone
          · rw [hset, if_neg hr'] at hnone
            exact .inr ⟨hnone, hnew, hstep way hway hr⟩

/-! ### Where nothing stands -/

/-- Nothing stands below a place. -/
def Bare (t : FileTree) (q : Place) : Prop := ∀ ns, ns ≠ [] → t.node? (q ++ ns) = none

/-- Whatever stands somewhere stands in a directory. -/
def Closed (t : FileTree) : Prop :=
  ∀ q name, t.node? (q ++ [name]) ≠ none → t.node? q = some .directory

/-- Whatever stands below a place, but not in it, stands in a directory. -/
def ClosedBelow (t : FileTree) (base : Place) : Prop :=
  ∀ ns name, ns ≠ [] → t.node? (base ++ (ns ++ [name])) ≠ none →
    t.node? (base ++ ns) = some .directory

theorem ClosedBelow.bare {base : Place} (ht : t.ClosedBelow base) (hne : ns ≠ [])
    (hns : t.node? (base ++ ns) ≠ some .directory) : t.Bare (base ++ ns) := by
  intro ms
  induction ms using List.reverseRecOn with
  | nil => exact fun hnil ↦ (hnil rfl).elim
  | append_singleton ms name ih =>
    intro _
    by_contra hnode
    rw [List.append_assoc, ← List.append_assoc ns] at hnode
    have hparent := ht _ _ (by simp [hne]) hnode
    rw [← List.append_assoc] at hparent
    by_cases hms : ms = []
    · rw [hms, List.append_nil] at hparent
      exact hns hparent
    · rw [ih hms] at hparent
      cases hparent

theorem Bare.closedBelow (h : t.Bare q) : t.ClosedBelow q :=
  fun ms name _ hnode ↦ (hnode (h (ms ++ [name]) (by simp))).elim

theorem Closed.closedBelow (ht : t.Closed) (base : Place) : t.ClosedBelow base := by
  intro ms name _ hnode
  rw [← List.append_assoc] at hnode
  exact ht _ _ hnode

theorem Closed.bare (ht : t.Closed) (hq : t.node? q ≠ some .directory) : t.Bare q :=
  (ht.closedBelow []).bare (ne_nil_of_node? hq) hq

theorem Closed.set_file (ht : t.Closed) (hq : t.node? q = some .directory)
    (hfree : t.node? (q ++ [name]) ≠ some .directory) (octets : List UInt8) :
    (t.set (q ++ [name]) (.file octets)).Closed := by
  have hdirectory {r : Place} (hr : t.node? r = some .directory) :
      (t.set (q ++ [name]) (.file octets)).node? r = some .directory := by
    rw [node?_set _ _ _ _ (by simp), if_neg, hr]
    rintro rfl
    exact hfree hr
  intro r m hnode
  rw [node?_set _ _ _ _ (by simp)] at hnode
  split_ifs at hnode with hplace
  · obtain ⟨rfl, -⟩ := List.append_inj' hplace rfl
    exact hdirectory hq
  · exact hdirectory (ht r m hnode)

/-- Names that do not lead up lead to a place or below it. -/
theorem exists_place_eq (h : ∀ name ∈ ns, Path.isUp name = false) (q : Place) :
    ∃ ms, Path.place q ns = q ++ ms := by
  induction ns generalizing q with
  | nil => exact ⟨[], (List.append_nil q).symm⟩
  | cons name ns ih =>
    have hrest := fun m hm ↦ h m (List.mem_cons_of_mem name hm)
    by_cases hidle : Path.isIdle name = true
    · rw [Path.place_cons, Path.next_of_isIdle hidle]
      exact ih hrest q
    · have hnext : Path.next q name = q ++ [name] := by
        simp [Path.next, hidle, h name List.mem_cons_self]
      obtain ⟨ms, hms⟩ := ih hrest (q ++ [name])
      rw [Path.place_cons, hnext]
      exact ⟨name :: ms, hms.trans (List.append_cons q name ms).symm⟩

/-- Below a place where nothing stands, any directories can be created, and nothing stands below
them. -/
theorem createFrom_of_bare (h : t.Bare q)
    (hnames : ∀ name ∈ ns, Path.isUp name = false ∧ Path.octetCount name ≤ Path.nameLimit) :
    (t.createFrom q ns).1 = .ok () ∧ (t.createFrom q ns).2.Bare (Path.place q ns) := by
  induction ns generalizing t q with
  | nil => exact ⟨rfl, h⟩
  | cons name ns ih =>
    obtain ⟨hup, hshort⟩ := hnames name List.mem_cons_self
    have hrest := fun m hm ↦ hnames m (List.mem_cons_of_mem name hm)
    by_cases hidle : Path.isIdle name = true
    · rw [createFrom, enter_of_isIdle hidle, Path.place_cons, Path.next_of_isIdle hidle]
      exact ih h hrest
    · have hplain : Path.Plain name := ⟨by simpa using hidle, hup, hshort⟩
      rw [createFrom, enter_plain hplain, h [name] (by simp), Path.place_cons, hplain.next_eq]
      refine ih (fun ms hms ↦ ?_) hrest
      rw [node?_set _ _ _ _ (by simp), if_neg (by simpa using hms), List.append_assoc]
      exact h ([name] ++ ms) (by simp)

/-- When a path leads to nothing and none of its names leads up, it can be created, and nothing
stands below it. -/
theorem Closed.createFrom_of_missing (ht : t.Closed)
    (hnames : ∀ name ∈ ns, Path.isUp name = false ∧ Path.octetCount name ≤ Path.nameLimit)
    (hmissing : t.walk q ns = .error .absent ∨ ∃ s, t.walk q ns = .ok (.vacant s)) :
    t.node? (Path.place q ns) = none ∧ (t.createFrom q ns).1 = .ok () ∧
      (t.createFrom q ns).2.Bare (Path.place q ns) := by
  induction ns generalizing q with
  | nil => simp [walk] at hmissing
  | cons name ns ih =>
    obtain ⟨hup, hshort⟩ := hnames name List.mem_cons_self
    have hrest := fun m hm ↦ hnames m (List.mem_cons_of_mem name hm)
    by_cases hidle : Path.isIdle name = true
    · rw [walk, enter_of_isIdle hidle] at hmissing
      rw [createFrom, enter_of_isIdle hidle, Path.place_cons, Path.next_of_isIdle hidle]
      exact ih hrest hmissing
    · have hplain : Path.Plain name := ⟨by simpa using hidle, hup, hshort⟩
      rw [walk, enter_plain hplain] at hmissing
      rw [createFrom, enter_plain hplain, Path.place_cons, hplain.next_eq]
      cases hnode : t.node? (q ++ [name]) with
      | none =>
        have hbare : t.Bare (q ++ [name]) := ht.bare (by simp [hnode])
        refine ⟨?_, createFrom_of_bare (fun ms hms ↦ ?_) hrest⟩
        · obtain ⟨ms, hms⟩ := exists_place_eq (fun m hm ↦ (hrest m hm).1) (q ++ [name])
          rw [hms]
          by_cases hnil : ms = []
          · rw [hnil, List.append_nil, hnode]
          · exact hbare ms hnil
        · rw [node?_set _ _ _ _ (by simp), if_neg (by simpa using hms)]
          exact hbare ms hms
      | some n =>
        cases n with
        | directory =>
          rw [hnode] at hmissing
          exact ih hrest hmissing
        | file octets =>
          rw [hnode] at hmissing
          cases ns <;> simp [Spot.ofNode] at hmissing

end FileTree

/-! ## Appending to what is there -/

namespace FileTree

variable {t : FileTree} {q r : Place} {p : Path} {octets : List UInt8}

/-- The last name on the way to anything but a directory is entered from a directory. -/
theorem exists_concat_of_walk {s : Spot} (h : t.walk q p = .ok s) (hs : ∀ r, s ≠ .directory r) :
    ∃ way name place, p = way ++ [name] ∧ Path.isIdle name = false ∧
      t.walk q way = .ok (.directory place) ∧ t.enter place name = .ok s := by
  induction p generalizing q with
  | nil => cases h; exact (hs q rfl).elim
  | cons name p ih =>
    rcases walk_cons h with ⟨next, he, hw⟩ | ⟨he, rfl⟩
    · obtain ⟨way, last, place, rfl, hidle, hplace, hlast⟩ := ih hw
      refine ⟨name :: way, last, place, rfl, hidle, ?_, hlast⟩
      rw [walk, he]
      exact hplace
    · refine ⟨[], name, q, rfl, ?_, rfl, he⟩
      by_contra hidle
      rw [Bool.not_eq_false] at hidle
      rw [enter_of_isIdle hidle] at he
      cases he
      exact hs q rfl

/-- Nothing has to be created on the way to a file. -/
theorem createAll_parent_of_locate_file (h : t.locate p = .ok (.file r octets)) :
    t.createAll p.parent = (.ok (), t) := by
  obtain ⟨hfault, hwalk⟩ := locate_eq_ok h
  obtain ⟨way, name, place, rfl, hidle, hplace, -⟩ := exists_concat_of_walk hwalk (by simp)
  rw [createAll_parent hidle hfault, createFrom_of_walk hplace]

end FileTree

/-- Octets can be appended to a key that has some. -/
theorem Storage.append_of_keeps {s : Storage} {key : String} {octets : List UInt8}
    (h : s.Keeps key octets) (more : List UInt8) :
    ∃ s', s.append key more = (.ok (), s') := by
  cases s with
  | memory m => exact ⟨_, rfl⟩
  | directory d =>
    obtain ⟨p, q, hp, hlocate⟩ := locate_of_keeps h
    have hmade := FileTree.createAll_parent_of_locate_file hlocate
    refine ⟨.directory { d with files := d.files.set q (.file (octets ++ more)) }, ?_⟩
    simp only [append, Directory.append, Directory.update, hp, hmade, FileTree.append,
      FileTree.update, hlocate]

namespace Access

variable {a : Access} {key : String}

theorem append_of_mem (h : .append ∈ a.refused) (octets : List UInt8) :
    a.append key octets = (.error (.refused .append key), a) := by
  simp [append, permit, h]

theorem append_of_keeps (hpermit : .append ∉ a.refused) {octets : List UInt8}
    (h : a.storage.Keeps key octets) (more : List UInt8) :
    ∃ a', a.append key more = (.ok (), a') := by
  obtain ⟨s, hs⟩ := Storage.append_of_keeps h more
  exact ⟨{ a with storage := s }, by simp [append, permit, hpermit, hs]⟩

end Access

end TripleIndex
