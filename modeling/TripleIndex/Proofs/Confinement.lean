import TripleIndex.Proofs.Changes
import TripleIndex.Proofs.Session
import Mathlib.Data.List.Infix

/-!
# Keys stay below the root

A key that could lead out of the root is refused before anything is looked up (`Escapes`).  Every
other key leads to the root or below it, so that requests neither change nor notice what stands
elsewhere.  What they may do outside the root is to create directories where the path of the root
passes (`Directory.Confined`), and all that they notice there is what is in the way of this path
(`Directory.Alike`).

Both are shown of one path first: what a change at its end leaves (`FileTree.ChangedAt`), and that
two trees which agree at the places that it passes are treated alike.
-/

namespace TripleIndex

namespace FileTree

variable {S T : Place → Prop} {t u : FileTree} {q r : Place} {p : Path} {name : FileName}

/-- Every place that a path passes on its way is one of some places. -/
def Passes (S : Place → Prop) (q : Place) (p : Path) : Prop :=
  ∀ way, way ≠ [] → way <+: p → S (Path.place q way)

theorem Passes.head (h : Passes S q (name :: p)) : S (Path.next q name) :=
  h [name] (by simp) (by simp)

theorem Passes.tail (h : Passes S q (name :: p)) : Passes S (Path.next q name) p := by
  intro way _ hway
  exact h (name :: way) (by simp) (by simpa using hway)

theorem Passes.of_prefix {p' : Path} (h : Passes S q p) (hp : p' <+: p) : Passes S q p' :=
  fun way hne hway ↦ h way hne (hway.trans hp)

/-! ## Trees that agree -/

/-- Two trees have the same at some places, and at others they have directories, files or nothing
in common, whatever is in the files. -/
structure Agrees (S T : Place → Prop) (t u : FileTree) : Prop where
  here : u.here = t.here
  kind : ∀ r, S r → (u.node? r).map (· = .directory) = (t.node? r).map (· = .directory)
  node : ∀ r, T r → u.node? r = t.node? r

namespace Agrees

variable (h : Agrees S T t u)
include h

theorem start (p : Path) : u.start p = t.start p := by
  rw [FileTree.start, FileTree.start, h.here]

/-- A name leads to the same, unless it leads to two files. -/
theorem enter_cases (hS : S (Path.next q name)) :
    u.enter q name = t.enter q name ∨ ∃ place octets others,
      t.enter q name = .ok (.file place octets) ∧ u.enter q name = .ok (.file place others) := by
  have hkind := h.kind _ hS
  unfold Path.next at hkind
  unfold enter
  split_ifs at hkind ⊢ with hidle hup hlong
  · exact .inl rfl
  · exact .inl rfl
  · exact .inl rfl
  · cases hu : u.node? (q ++ [name]) with
    | none =>
      cases ht : t.node? (q ++ [name]) with
      | none => exact .inl (by simp only [hu, ht])
      | some n => simp [hu, ht] at hkind
    | some m =>
      cases ht : t.node? (q ++ [name]) with
      | none => simp [hu, ht] at hkind
      | some n =>
        cases m with
        | directory =>
          cases n with
          | directory => exact .inl (by simp only [hu, ht])
          | file octets => simp [hu, ht] at hkind
        | file others =>
          cases n with
          | directory => simp [hu, ht] at hkind
          | file octets =>
            exact .inr ⟨q ++ [name], octets, others, by simp only [ht], by simp only [hu]⟩

theorem enter (hT : T (Path.next q name)) : u.enter q name = t.enter q name := by
  have hnode := h.node _ hT
  unfold Path.next at hnode
  unfold FileTree.enter
  split_ifs at hnode ⊢ with hidle hup hlong
  · rfl
  · rfl
  · rfl
  · simp only [hnode]

/-- A path arrives at the same when the trees agree on its end. -/
theorem walk (hp : Passes S q p) (hend : T (Path.place q p)) : u.walk q p = t.walk q p := by
  induction p generalizing q with
  | nil => rfl
  | cons name p ih =>
    by_cases hnil : p = []
    · subst hnil
      rw [FileTree.walk, FileTree.walk, h.enter hend]
      cases t.enter q name with
      | error f => rfl
      | ok s => cases s <;> rfl
    · rw [FileTree.walk, FileTree.walk]
      rcases h.enter_cases hp.head with heq | ⟨place, octets, others, ht, hu⟩
      · rw [heq]
        cases he : t.enter q name with
        | error f => rfl
        | ok s =>
          cases s with
          | directory next =>
            obtain rfl : next = Path.next q name := (enter_spec he).1
            exact ih hp.tail hend
          | file next octets => rfl
          | vacant next => rfl
      · -- Behind a file there is nothing, whatever is in it.
        simp only [ht, hu, List.isEmpty_iff, if_neg hnil]

theorem set (hr : r ≠ []) (n : Node) : Agrees S T (t.set r n) (u.set r n) where
  here := h.here
  kind x hx := by
    rw [node?_set _ _ _ _ hr, node?_set _ _ _ _ hr]
    split
    · rfl
    · exact h.kind x hx
  node x hx := by
    rw [node?_set _ _ _ _ hr, node?_set _ _ _ _ hr]
    split
    · rfl
    · exact h.node x hx

theorem createFrom (hp : Passes S q p) :
    (u.createFrom q p).1 = (t.createFrom q p).1 ∧
      Agrees S T (t.createFrom q p).2 (u.createFrom q p).2 := by
  induction p generalizing t u q with
  | nil => exact ⟨rfl, h⟩
  | cons name p ih =>
    rw [FileTree.createFrom, FileTree.createFrom]
    rcases h.enter_cases hp.head with heq | ⟨place, octets, others, ht, hu⟩
    · rw [heq]
      cases he : t.enter q name with
      | error f => exact ⟨rfl, h⟩
      | ok s =>
        obtain ⟨hnext, hstands⟩ := enter_spec he
        cases s with
        | file next octets => exact ⟨rfl, h⟩
        | directory next =>
          obtain rfl : next = Path.next q name := hnext
          exact ih h hp.tail
        | vacant next =>
          obtain rfl : next = Path.next q name := hnext
          have hfree : t.node? (Path.next q name) = none := hstands
          exact ih (h.set (ne_nil_of_node? (t := t) (by simp [hfree])) _) hp.tail
    · rw [ht, hu]
      exact ⟨rfl, h⟩

theorem locate (hp : Passes S (t.start p) p) (hend : T (Path.place (t.start p) p)) :
    u.locate p = t.locate p := by
  rw [FileTree.locate, FileTree.locate, h.start]
  cases p.fault? with
  | some f => rfl
  | none => exact h.walk hp hend

theorem read (hp : Passes S (t.start p) p) (hend : T (Path.place (t.start p) p)) :
    u.read p = t.read p := by
  rw [FileTree.read, FileTree.read, h.locate hp hend]

/-- A change of one file fails in both trees, or it leaves them in agreement. -/
theorem update (hp : Passes S (t.start p) p) (hend : T (Path.place (t.start p) p))
    (change : List UInt8 → List UInt8) :
    (∃ f, t.update p change = .error f ∧ u.update p change = .error f) ∨
      ∃ t' u', t.update p change = .ok t' ∧ u.update p change = .ok u' ∧ Agrees S T t' u' := by
  have hlocate := h.locate hp hend
  cases hl : t.locate p with
  | error f => exact .inl ⟨f, by simp only [FileTree.update, hl], by
      simp only [FileTree.update, hlocate, hl]⟩
  | ok s =>
    rw [hl] at hlocate
    have hstands := (walk_spec (locate_eq_ok hl).2).2
    cases s with
    | directory place =>
      refine .inl ⟨.isDirectory, ?_, ?_⟩
      · simp only [FileTree.update, hl]
      · simp only [FileTree.update, hlocate]
    | file place octets =>
      have hne : place ≠ [] := ne_nil_of_node? (node?_place_ne hstands (by simp))
      refine .inr ⟨_, _, ?_, ?_, h.set hne (.file (change octets))⟩
      · simp only [FileTree.update, hl]
      · simp only [FileTree.update, hlocate]
    | vacant place =>
      have hne : place ≠ [] := ne_nil_of_node? (node?_place_ne hstands (by simp))
      refine .inr ⟨_, _, ?_, ?_, h.set hne (.file (change []))⟩
      · simp only [FileTree.update, hl]
      · simp only [FileTree.update, hlocate]

/-- The directories above a path are created alike. -/
theorem createAll_parent (hp : Passes S (t.start p) p) :
    (u.createAll p.parent).1 = (t.createAll p.parent).1 ∧
      Agrees S T (t.createAll p.parent).2 (u.createAll p.parent).2 := by
  have hpre : p.parent <+: p :=
    (Path.isPrefix_trim _).trans ((List.dropLast_prefix _).trans (Path.isPrefix_trim p))
  rw [createAll, createAll, h.start]
  cases p.parent.fault? with
  | some f => exact ⟨rfl, h⟩
  | none =>
    refine h.createFrom ?_
    by_cases hnil : p.parent = []
    · rw [hnil]
      exact fun way hne hway ↦ (hne (List.prefix_nil.mp hway)).elim
    · have hstart : t.start p.parent = t.start p := by
        rw [FileTree.start, FileTree.start,
          Path.isAbsolute_of_prefix hpre hnil (Path.trim_ne_slash _)]
      rw [hstart]
      exact hp.of_prefix hpre

end Agrees

end FileTree

/-! ## Keys that are refused -/

/-- A key that could lead out of a root: it is empty, begins with a slash, or has two points between
slashes. -/
def Escapes (key : String) : Prop :=
  key = "" ∨ ['/'] <+: key.toList ∨ ['.', '.'] ∈ key.toList.splitOn '/'

instance : DecidablePred Escapes := fun _ ↦ inferInstanceAs (Decidable (_ ∨ _ ∨ _))

theorem isValidKey_iff_not_escapes {key : String} : isValidKey key = true ↔ ¬ Escapes key := by
  have hfirst : (∃ name rest, Path.ofString key = name :: rest ∧ name ≠ []) ↔
      ¬ (key = "" ∨ ['/'] <+: key.toList) := by
    rw [Path.ofString, Path.ofText, ← String.toList_eq_nil_iff]
    cases key.toList with
    | nil => simp
    | cons c cs =>
      rw [List.splitOn_cons_eq_if_modifyHead]
      by_cases hc : c = '/'
      · simp [hc]
      · cases hcs : cs.splitOn '/' with
        | nil => exact (List.splitOn_ne_nil _ _ hcs).elim
        | cons name rest => simp [hc, Ne.symm hc]
  have hup : (∀ name ∈ Path.ofString key, Path.isUp name = false) ↔
      ['.', '.'] ∉ key.toList.splitOn '/' := by
    constructor
    · intro h hmem
      exact absurd (h _ hmem) (by simp [Path.isUp])
    · intro h name hname
      refine beq_eq_false_iff_ne.mpr ?_
      rintro rfl
      exact h hname
  rw [isValidKey_iff, hfirst, hup, Escapes, ← or_assoc, not_or (q := _ ∈ _)]

namespace Directory

open Storage (Request)

variable {d d' x : Directory} {key : String} {r : Place}

theorem path_of_escapes (h : Escapes key) : d.path key = .error (.invalidKey key) := by
  rw [path, if_neg]
  rw [isValidKey_iff_not_escapes, not_not]
  exact h

theorem path_of_not_escapes (h : ¬ Escapes key) :
    d.path key = .ok (d.root.join (Path.ofString key)) := by
  rw [path, if_pos (isValidKey_iff_not_escapes.mpr h)]

/-- A key that is refused is refused by every request, before anything has happened. -/
theorem answer_of_escapes (h : Escapes key) {q : Request} (hq : q.keys = [key]) :
    (Storage.directory d).answer q = (.error (.invalidKey key), .directory d) := by
  have hpath := path_of_escapes (d := d) h
  cases q with
  | put k octets =>
    obtain rfl : k = key := List.singleton_inj.mp hq
    simp only [Storage.answer, Storage.put, put, update, hpath, Except.map]
  | append k octets =>
    obtain rfl : k = key := List.singleton_inj.mp hq
    simp only [Storage.answer, Storage.append, append, update, hpath, Except.map]
  | read k =>
    obtain rfl : k = key := List.singleton_inj.mp hq
    simp only [Storage.answer, Storage.read, read, hpath, Except.map]
  | contains k =>
    obtain rfl : k = key := List.singleton_inj.mp hq
    simp only [Storage.answer, Storage.contains, contains, hpath, Except.map]
  | find e pre => cases hq

theorem update_ne_invalidKey (h : ¬ Escapes key) (action : FileAction)
    (change : FileTree → Path → Except FileFault FileTree) (k : String) :
    (d.update action key change).1 ≠ .error (.invalidKey k) := by
  rw [update, path_of_not_escapes h]
  dsimp only
  split
  · simp [fault]
  · split <;> simp [fault]

/-- No other key is refused as one that is not valid. -/
theorem answer_ne_invalidKey (h : ¬ Escapes key) {q : Request} (hq : q.keys = [key]) (k : String) :
    ((Storage.directory d).answer q).1 ≠ .error (.invalidKey k) := by
  have hpath := path_of_not_escapes (d := d) h
  cases q with
  | put l octets =>
    obtain rfl : l = key := List.singleton_inj.mp hq
    intro heq
    exact update_ne_invalidKey h .write _ k (map_eq_error_iff.mp heq)
  | append l octets =>
    obtain rfl : l = key := List.singleton_inj.mp hq
    intro heq
    exact update_ne_invalidKey h .openFile _ k (map_eq_error_iff.mp heq)
  | read l =>
    obtain rfl : l = key := List.singleton_inj.mp hq
    intro heq
    have hread : d.read l = .error (.invalidKey k) := map_eq_error_iff.mp heq
    rw [read, hpath] at hread
    dsimp only at hread
    split at hread <;> simp [fault] at hread
  | contains l =>
    obtain rfl : l = key := List.singleton_inj.mp hq
    intro heq
    have hcontains : d.contains l = .error (.invalidKey k) := map_eq_error_iff.mp heq
    rw [contains, hpath] at hcontains
    dsimp only at hcontains
    split at hcontains <;> simp [fault] at hcontains
  | find e pre => cases hq

/-! ## The reach of a directory -/

/-- The root, or a place below it. -/
def Inside (d : Directory) (r : Place) : Prop := d.base <+: r

instance (d : Directory) : DecidablePred d.Inside := fun r ↦
  inferInstanceAs (Decidable (d.base <+: r))

/-- A place that the path of the root passes. -/
def OnWay (d : Directory) (r : Place) : Prop :=
  ∃ way, way <+: d.root ∧ r = Path.place (d.files.start d.root) way

/-- The places that can be come upon when a key is looked up. -/
def Reach (d : Directory) (r : Place) : Prop := d.Inside r ∨ d.OnWay r

theorem passes_root (d : Directory) :
    FileTree.Passes d.Reach (d.files.start d.root) d.root :=
  fun way _ hway ↦ .inr ⟨way, hway, rfl⟩

theorem isPrefix_stem (p : Path) : p.stem <+: p := by
  obtain ⟨idles, hp, -⟩ := Path.eq_stem_append p
  exact ⟨idles, hp.symm⟩

/-- A beginning of the path of a key is on the way to the root, or it leads below it. -/
theorem reach_join (h : isValidKey key = true) {way : Path}
    (hway : way <+: d.root.join (Path.ofString key)) :
    d.OnWay (Path.place (d.files.start d.root) way) ∨
      d.Inside (Path.place (d.files.start d.root) way) := by
  rw [Path.join_eq] at hway
  rcases List.prefix_or_prefix_of_prefix hway (List.prefix_append d.root.stem _) with hpre | hpre
  · exact .inl ⟨way, hpre.trans (isPrefix_stem d.root), rfl⟩
  · obtain ⟨names, rfl⟩ := hpre
    have hnames : names <+: Path.ofString key := (List.prefix_append_right_inj _).mp hway
    have hdown : ∀ name ∈ names, Path.isUp name = false := fun name hname ↦
      (isValidKey_iff.mp h).2 name (hnames.subset hname)
    refine .inr ?_
    rw [Inside, Path.place_append, Path.place_stem, Path.place_eq_append hdown]
    exact List.prefix_append _ _

theorem passes_join (h : isValidKey key = true) :
    FileTree.Passes d.Reach (d.files.start (d.root.join (Path.ofString key)))
      (d.root.join (Path.ofString key)) := by
  intro way _ hway
  rw [start_join h]
  exact (reach_join h hway).symm

theorem inside_join (h : isValidKey key = true) :
    d.Inside (Path.place (d.files.start (d.root.join (Path.ofString key)))
      (d.root.join (Path.ofString key))) := by
  rw [Inside, place_join h]
  exact List.prefix_append _ _

/-! ## What requests change -/

/-- Outside the root nothing has changed, except that directories have been created where the path
of the root passes. -/
structure Confined (d d' : Directory) : Prop where
  root : d'.root = d.root
  here : d'.files.here = d.files.here
  outside : ∀ r, ¬ d.Inside r → d'.files.node? r = d.files.node? r ∨
    d.files.node? r = none ∧ d'.files.node? r = some .directory ∧ d.OnWay r

namespace Confined

theorem refl (d : Directory) : d.Confined d := ⟨rfl, rfl, fun _ _ ↦ .inl rfl⟩

theorem start_eq (h : d.Confined d') (p : Path) : d'.files.start p = d.files.start p := by
  rw [FileTree.start, FileTree.start, h.here]

theorem inside_iff (h : d.Confined d') : d'.Inside r ↔ d.Inside r := by
  rw [Inside, Inside, base, base, h.root, h.start_eq]

theorem onWay_iff (h : d.Confined d') : d'.OnWay r ↔ d.OnWay r := by
  rw [OnWay, OnWay, h.root, h.start_eq]

theorem trans {d₁ d₂ d₃ : Directory} (h : d₁.Confined d₂) (h' : d₂.Confined d₃) :
    d₁.Confined d₃ where
  root := h'.root.trans h.root
  here := h'.here.trans h.here
  outside r hr := by
    rcases h'.outside r (hr ∘ h.inside_iff.mp) with hsame' | ⟨hfree', hnew', hway'⟩
    · rcases h.outside r hr with hsame | ⟨hfree, hnew, hway⟩
      · exact .inl (hsame'.trans hsame)
      · exact .inr ⟨hfree, hsame'.trans hnew, hway⟩
    · rcases h.outside r hr with hsame | ⟨hfree, hnew, hway⟩
      · exact .inr ⟨hsame.symm.trans hfree', hnew', h.onWay_iff.mp hway'⟩
      · rw [hnew] at hfree'
        cases hfree'

end Confined

/-- A change at the end of the path of a key is a change below the root. -/
theorem Confined.of_changedAt {t : FileTree} (h : isValidKey key = true)
    (ht : FileTree.ChangedAt (d.root.join (Path.ofString key)) d.files t) :
    d.Confined { d with files := t } where
  root := rfl
  here := ht.here
  outside r hr := by
    have hapart : r ≠ Path.place (d.files.start (d.root.join (Path.ofString key)))
        (d.root.join (Path.ofString key)) := by
      rintro rfl
      exact hr (inside_join h)
    rcases ht.others r hapart with hsame | ⟨hfree, hnew, way, hway, hplace⟩
    · exact .inl hsame
    · rw [start_join h] at hplace
      subst hplace
      exact .inr ⟨hfree, hnew, (reach_join h hway).resolve_right hr⟩

theorem confined_update (d : Directory) (action : FileAction) (key : String)
    (change : List UInt8 → List UInt8) :
    d.Confined (d.update action key fun t p ↦ t.update p change).2 := by
  by_cases h : isValidKey key = true
  · obtain ⟨t, ht, hchanged⟩ := d.changedAt_update action key change
    rw [ht]
    exact .of_changedAt h hchanged
  · rw [update, path, if_neg h]
    exact .refl d

theorem confined_answer (d : Directory) (q : Request) :
    ∃ d', ((Storage.directory d).answer q).2 = .directory d' ∧ d.Confined d' := by
  cases q with
  | put key octets => exact ⟨_, rfl, d.confined_update .write key fun _ ↦ octets⟩
  | append key octets => exact ⟨_, rfl, d.confined_update .openFile key (· ++ octets)⟩
  | read key => exact ⟨d, rfl, .refl d⟩
  | contains key => exact ⟨d, rfl, .refl d⟩
  | find e pre => exact ⟨d, rfl, .refl d⟩

theorem confined_after (d : Directory) (qs : List Request) :
    ∃ d', (Storage.directory d).after qs = .directory d' ∧ d.Confined d' := by
  induction qs generalizing d with
  | nil => exact ⟨d, rfl, .refl d⟩
  | cons q qs ih =>
    obtain ⟨d₁, hanswer, h₁⟩ := d.confined_answer q
    obtain ⟨d₂, hafter, h₂⟩ := ih d₁
    exact ⟨d₂, by rw [Storage.after_cons, hanswer, hafter], h₁.trans h₂⟩

/-! ## What requests notice -/

/-- Two directories with one root have the same below it.  Where the path of the root passes there
are directories, files or nothing in both, and elsewhere there may be anything. -/
structure Alike (d x : Directory) : Prop where
  root : x.root = d.root
  files : FileTree.Agrees d.Reach d.Inside d.files x.files

namespace Alike

variable (h : d.Alike x)
include h

theorem path_eq (key : String) : x.path key = d.path key := by
  rw [path, path, h.root]

theorem locate_root : x.files.locate d.root = d.files.locate d.root :=
  h.files.locate d.passes_root List.prefix_rfl

theorem read_eq (key : String) : x.read key = d.read key := by
  rw [read, read, h.path_eq]
  cases hp : d.path key with
  | error f => rfl
  | ok p =>
    obtain ⟨hvalid, rfl⟩ := path_eq_ok_iff.mp hp
    simp only [h.files.read (passes_join hvalid) (inside_join hvalid)]

theorem contains_eq (key : String) : x.contains key = d.contains key := by
  rw [contains, contains, h.path_eq]
  cases hp : d.path key with
  | error f => rfl
  | ok p =>
    obtain ⟨hvalid, rfl⟩ := path_eq_ok_iff.mp hp
    simp only [h.files.locate (passes_join hvalid) (inside_join hvalid)]

theorem find_eq (e : FileTree.Enumeration) (pre : String) : x.find e pre = d.find e pre := by
  rw [find, find, h.root, h.locate_root]
  cases hl : d.files.locate d.root with
  | error f => cases f <;> rfl
  | ok s =>
    cases s with
    | file place octets => rfl
    | vacant place => rfl
    | directory place =>
      have hplace : place = d.base :=
        (FileTree.walk_spec (FileTree.locate_eq_ok hl).2).1
      have hnode : ∀ r, place <+: r → x.files.node? r = d.files.node? r := fun r hr ↦
        h.files.node r (by rwa [Inside, ← hplace])
      have hpending : ∀ q ∈ [place], place <+: q := by simp
      simp only [FileTree.directoriesFrom_congr e hnode hpending,
        FileTree.filesFrom_congr e hnode, unlisted?, h.root]

/-- Trees that agree in what the first directory reaches make directories that are alike. -/
theorem of_agrees {t u : FileTree} (hd : d.Confined { d with files := t })
    (htu : FileTree.Agrees d.Reach d.Inside t u) :
    Alike { d with files := t } { x with files := u } where
  root := h.root
  files := by
    have hinside : Inside { d with files := t } = d.Inside := funext fun _ ↦ propext hd.inside_iff
    have hreach : Reach { d with files := t } = d.Reach := by
      funext r
      rw [Reach, Reach, propext hd.inside_iff, propext hd.onWay_iff]
    rw [hinside, hreach]
    exact htu

/-- A change has the same outcome in both directories, and leaves them alike. -/
theorem update (action : FileAction) (key : String) (change : List UInt8 → List UInt8) :
    (x.update action key fun t p ↦ t.update p change).1 =
        (d.update action key fun t p ↦ t.update p change).1 ∧
      Alike (d.update action key fun t p ↦ t.update p change).2
        (x.update action key fun t p ↦ t.update p change).2 := by
  rw [Directory.update, Directory.update, h.path_eq]
  cases hp : d.path key with
  | error f => exact ⟨rfl, h⟩
  | ok p =>
    obtain ⟨hvalid, rfl⟩ := path_eq_ok_iff.mp hp
    have hmade :=
      FileTree.ChangedAt.of_createAll_parent d.files (d.root.join (Path.ofString key))
    have hstart := d.files.start_createAll (d.root.join (Path.ofString key)).parent
    obtain ⟨hdone, hagrees⟩ := h.files.createAll_parent (passes_join hvalid)
    dsimp only
    generalize d.files.createAll (d.root.join (Path.ofString key)).parent = made
      at hmade hstart hdone hagrees ⊢
    generalize x.files.createAll (d.root.join (Path.ofString key)).parent = made' at hdone hagrees ⊢
    obtain ⟨done, t⟩ := made
    obtain ⟨done', u⟩ := made'
    obtain rfl : done' = done := hdone
    cases done' with
    | error f => exact ⟨rfl, h.of_agrees (.of_changedAt hvalid hmade) hagrees⟩
    | ok _ =>
      have hpasses := passes_join (d := d) hvalid
      have hinside := inside_join (d := d) hvalid
      rw [← hstart] at hpasses hinside
      rcases hagrees.update hpasses hinside change with ⟨f, ht, hu⟩ | ⟨t', u', ht, hu, hagrees'⟩
      · simp only [ht, hu]
        exact ⟨trivial, h.of_agrees (.of_changedAt hvalid hmade) hagrees⟩
      · simp only [ht, hu]
        have hchanged := hmade.trans (.of_update ht)
        exact ⟨trivial, h.of_agrees (.of_changedAt hvalid hchanged) hagrees'⟩

theorem answer (q : Request) :
    ((Storage.directory x).answer q).1 = ((Storage.directory d).answer q).1 ∧
      ∃ d' x', ((Storage.directory d).answer q).2 = .directory d' ∧
        ((Storage.directory x).answer q).2 = .directory x' ∧ d'.Alike x' := by
  cases q with
  | put key octets =>
    obtain ⟨hdone, hafter⟩ := h.update .write key fun _ ↦ octets
    exact ⟨congrArg (Except.map fun _ ↦ Storage.Reply.done) hdone, _, _, rfl, rfl, hafter⟩
  | append key octets =>
    obtain ⟨hdone, hafter⟩ := h.update .openFile key (· ++ octets)
    exact ⟨congrArg (Except.map fun _ ↦ Storage.Reply.done) hdone, _, _, rfl, rfl, hafter⟩
  | read key =>
    exact ⟨congrArg (Except.map Storage.Reply.octets) (h.read_eq key), d, x, rfl, rfl, h⟩
  | contains key =>
    exact ⟨congrArg (Except.map Storage.Reply.flag) (h.contains_eq key), d, x, rfl, rfl, h⟩
  | find e pre =>
    exact ⟨congrArg (Except.map Storage.Reply.keys) (h.find_eq e pre), d, x, rfl, rfl, h⟩

theorem answers (qs : List Request) :
    (Storage.directory x).answers qs = (Storage.directory d).answers qs ∧
      ∃ d' x', (Storage.directory d).after qs = .directory d' ∧
        (Storage.directory x).after qs = .directory x' ∧ d'.Alike x' := by
  induction qs generalizing d x with
  | nil => exact ⟨rfl, d, x, rfl, rfl, h⟩
  | cons q qs ih =>
    obtain ⟨hreply, d₁, x₁, hd, hx, h₁⟩ := h.answer q
    obtain ⟨hreplies, hafter⟩ := ih h₁
    rw [Storage.answers, Storage.answers, Storage.after_cons, Storage.after_cons, hd, hx, hreply,
      hreplies]
    exact ⟨rfl, hafter⟩

end Alike

/-- Keys do not leave the root.  A key that could is refused by every request, and then nothing has
happened; no other key is refused in this way, and it leads to the root or below it.  So whatever
requests are made in whatever order, outside the root nothing changes but for the creation of the
root, and nothing that stands elsewhere makes a difference to any answer. -/
theorem confined (d : Directory) :
    (∀ key q, q.keys = [key] →
      ((∃ k, ((Storage.directory d).answer q).1 = .error (.invalidKey k)) ↔ Escapes key) ∧
      (Escapes key →
        (Storage.directory d).answer q = (.error (.invalidKey key), .directory d))) ∧
    (∀ key, ¬ Escapes key → ∃ p ns, d.path key = .ok p ∧
      Path.place (d.files.start p) p = d.base ++ ns) ∧
    (∀ qs, ∃ d', (Storage.directory d).after qs = .directory d' ∧ d.Confined d') ∧
    ∀ x, d.Alike x → ∀ qs,
      (Storage.directory x).answers qs = (Storage.directory d).answers qs ∧
        ∃ d' x', (Storage.directory d).after qs = .directory d' ∧
          (Storage.directory x).after qs = .directory x' ∧ d'.Alike x' := by
  refine ⟨?refused, ?accepted, d.confined_after, fun x hx ↦ hx.answers⟩
  case refused =>
    intro key q hq
    refine ⟨⟨?_, ?_⟩, fun h ↦ answer_of_escapes h hq⟩
    · rintro ⟨k, hk⟩
      by_contra h
      exact answer_ne_invalidKey h hq k hk
    · intro h
      exact ⟨key, by rw [answer_of_escapes h hq]⟩
  case accepted =>
    intro key h
    have hvalid := isValidKey_iff_not_escapes.mpr h
    exact ⟨_, (Path.ofString key).names, path_of_not_escapes h, place_join hvalid⟩

/-- A directory beside which nothing stands. -/
def alone : Directory := ⟨{}, Path.ofString "data/graphs"⟩

/-- A place that is neither below the root of this directory nor on the way to it. -/
def beside : Place := ["secret".toList]

theorem not_reach_beside : ¬ alone.Reach beside := by
  rintro (hinside | ⟨way, hway, hplace⟩)
  · have hbase : ¬ alone.base <+: beside := by decide +kernel
    exact hbase hinside
  · have hways : ∀ way ∈ alone.root.inits,
        beside ≠ Path.place (alone.files.start alone.root) way := by decide +kernel
    exact hways way ((List.mem_inits _ _).mpr hway) hplace

theorem alike_beside (n : Node) : alone.Alike ⟨alone.files.set beside n, alone.root⟩ := by
  have hset : ∀ r, alone.Reach r → (alone.files.set beside n).node? r = alone.files.node? r := by
    intro r hr
    rw [FileTree.node?_set _ _ _ _ (by simp [beside]), if_neg]
    rintro rfl
    exact not_reach_beside hr
  refine ⟨rfl, rfl, ?kind, ?node⟩
  case kind =>
    intro r hr
    rw [hset r hr]
  case node =>
    intro r hr
    exact hset r (.inl hr)

/-- A file beside the root. -/
def secret : Directory := ⟨alone.files.set beside (.file [115]), alone.root⟩

/-- Requests that try to come at this file, and others that write below the root. -/
def probes : List Request :=
  [.read "../../secret", .append "./a" [97], .put "../../secret" [], .read "a//../../../secret",
    .read "a", .find .byName ""]

/-- The file is not noticed, and it is not changed. -/
theorem confined_secret :
    secret.root = alone.root ∧
      (Storage.directory secret).answer (.read "../../secret") =
        (.error (.invalidKey "../../secret"), .directory secret) ∧
      (Storage.directory secret).answers probes = (Storage.directory alone).answers probes ∧
      ∃ d', (Storage.directory secret).after probes = .directory d' ∧
        d'.files.node? beside = some (.file [115]) := by
  obtain ⟨hrefused, -, hafter, -⟩ := secret.confined
  obtain ⟨-, -, -, halike⟩ := alone.confined
  have hescapes : Escapes "../../secret" := by decide +kernel
  have hsecret : secret.files.node? beside = some (.file [115]) := by decide +kernel
  have houtside : ¬ secret.Inside beside := by decide +kernel
  obtain ⟨d', hd', hconfined⟩ := hafter probes
  refine ⟨rfl, (hrefused _ (.read "../../secret") rfl).2 hescapes,
    (halike secret (alike_beside _) probes).1, d', hd', ?_⟩
  rcases hconfined.outside beside houtside with hsame | ⟨hfree, -⟩
  · rw [hsame, hsecret]
  · rw [hsecret] at hfree
    cases hfree

end Directory

end TripleIndex
