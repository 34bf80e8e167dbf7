import TripleIndex.Proofs.Alias

/-!
# Walks in a tree that has grown

A tree grows below a place when a file comes to stand at the end of some names, with directories on
the way to it (`FileTree.Grown`).  A walk that ends elsewhere notices little of this
(`FileTree.Grown.turns_walk`).  It is seen as before, except that a walk to nothing can turn out to
lead to one of the new directories, to go through the new file, or to have a name that is too long
and that had not been looked at before.

Looking at a path does not tell a free name in a directory from one behind which there is nothing,
and so walks are compared by what is seen of them (`FileTree.seen`).
-/

namespace TripleIndex

/-! ## Names -/

namespace Path

variable {name : FileName} {p : Path}

theorem isIdle_iff : isIdle name = true ↔ name = [] ∨ name = ['.'] := by simp [isIdle]

theorem names_cons_of_isIdle (h : isIdle name = true) : names (name :: p) = names p := by
  simp [names, h]

theorem names_cons_of_moves (h : isIdle name = false) : names (name :: p) = name :: names p := by
  simp [names, h]

theorem names_append (p r : Path) : names (p ++ r) = p.names ++ r.names := List.filter_append ..

theorem names_concat (h : isIdle name = false) : names (p ++ [name]) = p.names ++ [name] := by
  rw [names_append, names_cons_of_moves h]
  rfl

/-- A name that does not lead up stays, is too long, or is plain. -/
theorem isIdle_or_long_or_plain (hup : isUp name = false) :
    isIdle name = true ∨ (isIdle name = false ∧ nameLimit < octetCount name) ∨ Plain name := by
  cases hidle : isIdle name with
  | true => exact .inl rfl
  | false =>
    by_cases hlong : nameLimit < octetCount name
    · exact .inr (.inl ⟨rfl, hlong⟩)
    · exact .inr (.inr ⟨hidle, hup, Nat.not_lt.mp hlong⟩)

end Path

namespace FileTree

variable {t t' : FileTree} {base q : Place} {ns ms p : Path} {name : FileName}

theorem enter_of_long (hidle : Path.isIdle name = false) (hup : Path.isUp name = false)
    (hlong : Path.nameLimit < Path.octetCount name) (t : FileTree) (q : Place) :
    t.enter q name = .error .nameTooLong := by
  rw [enter, if_neg (by simp [hidle]), if_neg (by simp [hup]), if_pos hlong]

/-- Only the names that do not stay where they are matter to what is created. -/
theorem createFrom_names (t : FileTree) (q : Place) (p : Path) :
    t.createFrom q p.names = t.createFrom q p := by
  induction p generalizing t q with
  | nil => rfl
  | cons name p ih =>
    cases hidle : Path.isIdle name with
    | true =>
      rw [Path.names_cons_of_isIdle hidle, ih, createFrom, enter_of_isIdle hidle]
    | false =>
      rw [Path.names_cons_of_moves hidle, createFrom, createFrom]
      cases t.enter q name with
      | error f => rfl
      | ok s =>
        cases s with
        | directory next => exact ih t next
        | file next octets => rfl
        | vacant next => exact ih _ next

/-- Directories are created under names that are not too long. -/
theorem plain_of_createFrom (hok : (t.createFrom q p).1 = .ok ())
    (hp : ∀ name ∈ p, Path.isUp name = false) : ∀ name ∈ Path.names p, Path.Plain name := by
  induction p generalizing t q with
  | nil => simp [Path.names]
  | cons name p ih =>
    have hrest : ∀ m ∈ p, Path.isUp m = false := fun m hm ↦ hp m (List.mem_cons_of_mem name hm)
    have hplain : ∀ m ∈ Path.names p, Path.Plain m := by
      rcases createFrom_cons hok with ⟨-, hcreate⟩ | ⟨-, hcreate⟩
      · exact ih (hcreate ▸ hok) hrest
      · exact ih (hcreate ▸ hok) hrest
    have hup := hp name List.mem_cons_self
    rcases Path.isIdle_or_long_or_plain hup with hidle | ⟨hidle, hlong⟩ | hname
    · rwa [Path.names_cons_of_isIdle hidle]
    · simp [createFrom, enter_of_long hidle hup hlong] at hok
    · rw [Path.names_cons_of_moves hname.moves]
      exact List.forall_mem_cons.mpr ⟨hname, hplain⟩

/-! ## What is seen -/

/-- A free name in a directory is nothing to be seen. -/
def seen : Except FileFault Spot → Except FileFault Spot
  | .ok (.vacant _) => .error .absent
  | .ok (.directory place) => .ok (.directory place)
  | .ok (.file place octets) => .ok (.file place octets)
  | .error f => .error f

theorem seen_eq_directory_iff {r : Except FileFault Spot} :
    seen r = .ok (.directory q) ↔ r = .ok (.directory q) := by
  unfold seen
  split <;> simp

theorem seen_eq_nameTooLong_iff {r : Except FileFault Spot} :
    seen r = .error .nameTooLong ↔ r = .error .nameTooLong := by
  unfold seen
  split <;> simp

theorem seen_eq_absent_iff {r : Except FileFault Spot} :
    seen r = .error .absent ↔ (∃ place, r = .ok (.vacant place)) ∨ r = .error .absent := by
  unfold seen
  split <;> simp

/-- Outcomes that are seen alike are the same, if anything is seen. -/
theorem eq_or_absent_of_seen {r r' : Except FileFault Spot} (h : seen r' = seen r) :
    r' = r ∨ seen r' = .error .absent ∧ seen r = .error .absent := by
  rcases r with f | ⟨place⟩ | ⟨place, octets⟩ | place
  · rcases r' with g | ⟨q⟩ | ⟨q, os⟩ | q
    · exact .inl h
    · cases h
    · cases h
    · exact .inr ⟨rfl, h.symm⟩
  · exact .inl (seen_eq_directory_iff.mp h)
  · rcases r' with g | ⟨q⟩ | ⟨q, os⟩ | q
    · cases h
    · cases h
    · exact .inl h
    · cases h
  · exact .inr ⟨h, rfl⟩

/-- Where nothing stands, a walk stays, comes upon a name that is too long, or leads to nothing. -/
theorem walk_of_bare (h : t.Bare q) (hp : ∀ name ∈ p, Path.isUp name = false) :
    (p.names = [] ∧ t.walk q p = .ok (.directory q)) ∨
      ((∃ name ∈ p, Path.nameLimit < Path.octetCount name) ∧
        t.walk q p = .error .nameTooLong) ∨
      seen (t.walk q p) = .error .absent := by
  induction p with
  | nil => exact .inl ⟨rfl, rfl⟩
  | cons name p ih =>
    have hup := hp name List.mem_cons_self
    rcases Path.isIdle_or_long_or_plain hup with hidle | ⟨hidle, hlong⟩ | hplain
    · rw [Path.names_cons_of_isIdle hidle, walk, enter_of_isIdle hidle]
      have hrest : ∀ m ∈ p, Path.isUp m = false := fun m hm ↦ hp m (List.mem_cons_of_mem name hm)
      rcases ih hrest with hstay | ⟨⟨m, hm, hlong⟩, hw⟩ | hw
      · exact .inl hstay
      · exact .inr (.inl ⟨⟨m, List.mem_cons_of_mem name hm, hlong⟩, hw⟩)
      · exact .inr (.inr hw)
    · refine .inr (.inl ⟨⟨name, List.mem_cons_self, hlong⟩, ?_⟩)
      rw [walk, enter_of_long hidle hup hlong]
    · refine .inr (.inr ?_)
      rw [walk, enter_plain hplain, h [name] (by simp), Spot.ofNode]
      cases p <;> rfl

/-! ## Growth -/

/-- A file has come to stand at the end of some names, with directories on the way to it.  It may
have taken the place of a file. -/
structure Grown (t t' : FileTree) (base : Place) (ns : Path) : Prop where
  ne_nil : ns ≠ []
  file : ∃ octets, t'.node? (base ++ ns) = some (.file octets)
  free : t.node? (base ++ ns) ≠ some .directory
  way : ∀ ms, ms ≠ [] → ms <+: ns → ms ≠ ns → t'.node? (base ++ ms) = some .directory
  clear : ∀ ms octets, ms ≠ [] → ms <+: ns → ms ≠ ns → t.node? (base ++ ms) ≠ some (.file octets)
  beside : ∀ ms, ¬ ms <+: ns → t'.node? (base ++ ms) = t.node? (base ++ ms)

/-- What becomes of a walk along a path when a file has come to stand at the end of the names `ns`.
The walk leads by the names `ks` from where the file is below. -/
inductive Turns (ns ks p : Path) (r : Except FileFault Spot) : Except FileFault Spot → Prop where
  | same {r' : Except FileFault Spot} (h : seen r' = seen r) : Turns ns ks p r r'
  | opened (place : Place) (hr : seen r = .error .absent) (h : ks <+: ns) :
      Turns ns ks p r (.ok (.directory place))
  | blocked (hr : seen r = .error .absent) (h : ns <+: ks) : Turns ns ks p r (.error .notDirectory)
  | tooLong (hr : seen r = .error .absent)
      (h : ∃ name ∈ p, Path.nameLimit < Path.octetCount name) :
      Turns ns ks p r (.error .nameTooLong)

namespace Turns

variable {ks : Path} {r r' : Except FileFault Spot}

theorem cons (h : Turns ns ks p r r') (name : FileName) : Turns ns ks (name :: p) r r' := by
  cases h with
  | same h => exact .same h
  | opened place hr h => exact .opened place hr h
  | blocked hr h => exact .blocked hr h
  | tooLong hr h =>
    obtain ⟨m, hm, hlong⟩ := h
    exact .tooLong hr ⟨m, List.mem_cons_of_mem name hm, hlong⟩

/-- A walk that did not get as far as to a place where nothing stands becomes what a walk from there
becomes. -/
theorem of_bare (h : Turns ns ks p (t.walk q p) r') (hbare : t.Bare q)
    (hp : ∀ name ∈ p, Path.isUp name = false) (hr : seen r = .error .absent)
    (hks : p.names = [] → ks <+: ns) : Turns ns ks p r r' := by
  cases h with
  | same h =>
    rcases walk_of_bare hbare hp with ⟨hnames, hw⟩ | ⟨hlong, hw⟩ | hw
    · rw [hw] at h
      rw [seen_eq_directory_iff.mp h]
      exact .opened q hr (hks hnames)
    · rw [hw] at h
      rw [seen_eq_nameTooLong_iff.mp h]
      exact .tooLong hr hlong
    · exact .same (h.trans (hw.trans hr.symm))
  | opened place _ h => exact .opened place hr h
  | blocked _ h => exact .blocked hr h
  | tooLong _ h => exact .tooLong hr h

end Turns

namespace Grown

/-- Walks that do not end where the new file stands. -/
theorem turns_walk (h : t.Grown t' base ns) (ht : t.ClosedBelow base)
    (hp : ∀ name ∈ p, Path.isUp name = false) (ms : Path) (hne : ms ++ p.names ≠ ns) :
    Turns ns (ms ++ p.names) p (t.walk (base ++ ms) p) (t'.walk (base ++ ms) p) := by
  induction p generalizing ms with
  | nil => exact .same rfl
  | cons name p ih =>
    have hrest : ∀ m ∈ p, Path.isUp m = false := fun m hm ↦ hp m (List.mem_cons_of_mem name hm)
    have hup := hp name List.mem_cons_self
    rcases Path.isIdle_or_long_or_plain hup with hidle | ⟨hidle, hlong⟩ | hplain
    · rw [Path.names_cons_of_isIdle hidle] at hne ⊢
      rw [walk, walk, enter_of_isIdle hidle, enter_of_isIdle hidle]
      exact (ih hrest ms hne).cons name
    · rw [walk, walk, enter_of_long hidle hup hlong, enter_of_long hidle hup hlong]
      exact .same rfl
    · rw [Path.names_cons_of_moves hplain.moves, List.append_cons] at hne ⊢
      have hassoc : base ++ ms ++ [name] = base ++ (ms ++ [name]) := List.append_assoc ..
      rw [walk, walk, enter_plain hplain, enter_plain hplain, hassoc]
      by_cases hpre : ms ++ [name] <+: ns
      · by_cases heq : ms ++ [name] = ns
        · -- The walk comes upon the new file, and goes on.
          have hp : p ≠ [] := by
            rintro rfl
            exact hne (by rw [heq]; exact List.append_nil ns)
          obtain ⟨octets, hfile⟩ := h.file
          rw [heq, hfile]
          cases hnode : t.node? (base ++ ns) with
          | none =>
            simp only [Spot.ofNode, List.isEmpty_eq_false_iff.mpr hp]
            exact .blocked rfl (List.prefix_append ns _)
          | some n =>
            cases n with
            | directory => exact (h.free hnode).elim
            | file os =>
              simp only [Spot.ofNode, List.isEmpty_eq_false_iff.mpr hp]
              exact .same rfl
        · rw [h.way _ (by simp) hpre heq]
          cases hnode : t.node? (base ++ (ms ++ [name])) with
          | none =>
            -- Where the new directory is, the walk did not go on: there was nothing.
            have hbare : t.Bare (base ++ (ms ++ [name])) := ht.bare (by simp) (by simp [hnode])
            have habsent : seen (if p.isEmpty then .ok (.vacant (base ++ (ms ++ [name])))
                else .error .absent) = .error .absent := by cases p <;> rfl
            refine ((ih hrest _ hne).of_bare hbare hrest habsent fun hnil ↦ ?_).cons name
            rwa [hnil, List.append_nil]
          | some n =>
            cases n with
            | directory => exact (ih hrest _ hne).cons name
            | file octets => exact (h.clear _ octets (by simp) hpre heq hnode).elim
      · rw [h.beside _ hpre]
        cases t.node? (base ++ (ms ++ [name])) with
        | none => exact .same rfl
        | some n =>
          cases n with
          | directory => exact (ih hrest _ hne).cons name
          | file octets => exact .same rfl

/-- Files below are found again. -/
theorem below (h : t.Grown t' base ns) (ms : Path) {r : Place} (hr : t.Below (base ++ ms) r) :
    t'.Below (base ++ ms) r := by
  generalize hq : base ++ ms = q at hr
  induction hr generalizing ms with
  | @file q name octets hfile =>
    subst hq
    rw [List.append_assoc] at hfile
    by_cases hpre : ms ++ [name] <+: ns
    · by_cases heq : ms ++ [name] = ns
      · obtain ⟨os, hnew⟩ := h.file
        rw [← heq, ← List.append_assoc] at hnew
        exact .file hnew
      · exact (h.clear _ octets (by simp) hpre heq hfile).elim
    · rw [← h.beside _ hpre, ← List.append_assoc] at hfile
      exact .file hfile
  | @directory q r name hdirectory _ ih =>
    subst hq
    have hrest := ih _ (List.append_assoc ..).symm
    rw [List.append_assoc] at hdirectory
    refine .directory ?_ hrest
    rw [List.append_assoc]
    by_cases hpre : ms ++ [name] <+: ns
    · by_cases heq : ms ++ [name] = ns
      · exact (h.free (heq ▸ hdirectory)).elim
      · exact h.way _ (by simp) hpre heq
    · rw [h.beside _ hpre]
      exact hdirectory

/-- The new file is found. -/
theorem below_new (h : t.Grown t' base ns) : t'.Below base (base ++ ns) := by
  obtain ⟨octets, hfile⟩ := h.file
  exact .of_directories h.ne_nil hfile h.way

end Grown

/-- A file put at the end of a way that has been created. -/
theorem grown_set (hplain : ∀ m ∈ ns, Path.Plain m) (hok : (t.createFrom base ns).1 = .ok ())
    (hfree : (t.createFrom base ns).2.node? (base ++ (ns ++ [name])) ≠ some .directory)
    (octets : List UInt8) :
    t.Grown ((t.createFrom base ns).2.set (base ++ (ns ++ [name])) (.file octets)) base
      (ns ++ [name]) := by
  have hset (ms : Path) : ((t.createFrom base ns).2.set (base ++ (ns ++ [name]))
      (.file octets)).node? (base ++ ms) =
        if ns ++ [name] = ms then some (.file octets)
        else (t.createFrom base ns).2.node? (base ++ ms) := by
    rw [node?_set _ _ _ _ (by simp)]
    simp only [List.append_cancel_left_eq]
  have hbeside {ms : Path} (hms : ¬ ms <+: ns) :
      (t.createFrom base ns).2.node? (base ++ ms) = t.node? (base ++ ms) := by
    refine node?_createFrom_of_ne hplain fun ls _ hls heq ↦ ?_
    exact hms (List.append_cancel_left heq ▸ hls)
  constructor
  · simp
  · exact ⟨octets, by rw [hset, if_pos rfl]⟩
  · rwa [hbeside (fun hpre ↦ absurd hpre.length_le (by simp))] at hfree
  · intro ms hms hpre hne
    rw [hset, if_neg hne.symm]
    exact node?_createFrom_plain hplain hok hms ((List.prefix_concat_iff.mp hpre).resolve_left hne)
  · intro ms os hms hpre hne hfile
    have hway := node?_createFrom_plain hplain hok hms
      ((List.prefix_concat_iff.mp hpre).resolve_left hne)
    rw [(node?_createFrom t base ns os).mpr hfile] at hway
    cases hway
  · intro ms hms
    rw [hset, if_neg (by rintro rfl; exact hms List.prefix_rfl)]
    exact hbeside fun hpre ↦ hms (hpre.trans (List.prefix_append ns [name]))

/-! ## Trees stay closed -/

theorem ClosedBelow.set (ht : t.ClosedBelow base)
    (hms : ms ≠ [] → t.node? (base ++ ms) = some .directory)
    (hfree : t.node? (base ++ (ms ++ [name])) ≠ some .directory) (n : Node) :
    (t.set (base ++ (ms ++ [name])) n).ClosedBelow base := by
  intro ls m hls hnode
  rw [node?_set _ _ _ _ (by simp)] at hnode ⊢
  have hparent : t.node? (base ++ ls) = some .directory := by
    split at hnode
    · rename_i heq
      obtain ⟨rfl, -⟩ := List.append_inj' (List.append_cancel_left heq) rfl
      exact hms hls
    · exact ht ls m hls hnode
  rw [if_neg]
  · exact hparent
  · intro heq
    exact hfree (heq ▸ hparent)

theorem ClosedBelow.createFrom (ht : t.ClosedBelow base) (ms : Path)
    (hms : ms ≠ [] → t.node? (base ++ ms) = some .directory)
    (hp : ∀ name ∈ p, Path.isUp name = false) :
    (t.createFrom (base ++ ms) p).2.ClosedBelow base := by
  induction p generalizing t ms with
  | nil => exact ht
  | cons name p ih =>
    have hrest : ∀ m ∈ p, Path.isUp m = false := fun m hm ↦ hp m (List.mem_cons_of_mem name hm)
    have hup := hp name List.mem_cons_self
    rcases Path.isIdle_or_long_or_plain hup with hidle | ⟨hidle, hlong⟩ | hplain
    · rw [FileTree.createFrom, enter_of_isIdle hidle]
      exact ih ht ms hms hrest
    · rw [FileTree.createFrom, enter_of_long hidle hup hlong]
      exact ht
    · rw [FileTree.createFrom, enter_plain hplain, List.append_assoc]
      cases hnode : t.node? (base ++ (ms ++ [name])) with
      | none =>
        refine ih (ht.set hms (by simp [hnode]) .directory) _ (fun _ ↦ ?_) hrest
        rw [node?_set _ _ _ _ (by simp), if_pos rfl]
      | some n =>
        cases n with
        | directory => exact ih ht _ (fun _ ↦ hnode) hrest
        | file octets => exact ht

/-! ## Trees with more nodes -/

/-- Everything that stands in one tree stands in another one, too. -/
def Extends (t' t : FileTree) : Prop := ∀ r n, t.node? r = some n → t'.node? r = some n

theorem extends_createFrom (t : FileTree) (q : Place) (p : Path) :
    (t.createFrom q p).2.Extends t := by
  intro r n hnode
  cases n with
  | directory => exact node?_createFrom_of_directory hnode q p
  | file octets => exact (node?_createFrom t q p octets).mpr hnode

namespace Extends

variable {place : Place}

theorem set (h : t'.Extends t) (hplace : place ≠ []) (n : Node) :
    (t'.set place n).Extends (t.set place n) := by
  intro r m hnode
  rw [node?_set _ _ _ _ hplace] at hnode ⊢
  split at hnode
  · rename_i heq
    rwa [if_pos heq]
  · rename_i hne
    rw [if_neg hne]
    exact h r m hnode

theorem set_left (h : t'.Extends t) {n : Node} (hplace : place ≠ [])
    (hnode : t'.node? place = some n) : t'.Extends (t.set place n) := by
  intro r m hr
  rw [node?_set _ _ _ _ hplace] at hr
  split at hr
  · rename_i heq
    rw [← heq, hnode, hr]
  · exact h r m hr

/-- A name leads to the same, unless it has led to a free place before. -/
theorem enter (h : t'.Extends t) (q : Place) (name : FileName) :
    t'.enter q name = t.enter q name ∨
      ∃ r n, t.enter q name = .ok (.vacant r) ∧ t'.node? r = some n ∧
        t'.enter q name = .ok (.ofNode r (some n)) := by
  unfold FileTree.enter
  split_ifs
  · exact .inl rfl
  · exact .inl rfl
  · exact .inl rfl
  · dsimp only
    cases hnode : t.node? (q ++ [name]) with
    | some n => exact .inl (by rw [h _ n hnode])
    | none =>
      cases hnode' : t'.node? (q ++ [name]) with
      | none => exact .inl rfl
      | some n =>
        refine .inr ⟨_, n, rfl, hnode', ?_⟩
        cases n <;> rfl

/-- Directories that can be created in a tree can be created where less stands. -/
theorem createFrom_ok (h : t'.Extends t) (hok : (t'.createFrom q p).1 = .ok ()) :
    (t.createFrom q p).1 = .ok () := by
  induction p generalizing t t' q with
  | nil => rfl
  | cons name p ih =>
    rcases createFrom_cons hok with ⟨he, hcreate⟩ | ⟨he, hcreate⟩
    · rw [hcreate] at hok
      rcases h.enter q name with heq | ⟨r, n, hfree, hnode, hn⟩
      · rw [createFrom, ← heq, he]
        exact ih h hok
      · rw [he] at hn
        cases n with
        | file octets => cases hn
        | directory =>
          obtain rfl : Path.next q name = r := by cases hn; rfl
          have hne : Path.next q name ≠ [] :=
            ne_nil_of_node? (t := t) (by simp [show t.node? _ = none from (enter_spec hfree).2])
          rw [createFrom, hfree]
          exact ih (h.set_left hne hnode) hok
    · rw [hcreate] at hok
      rcases h.enter q name with heq | ⟨r, n, -, -, hn⟩
      · have hfree : t'.node? (Path.next q name) = none := (enter_spec he).2
        have hne : Path.next q name ≠ [] := ne_nil_of_node? (t := t') (by simp [hfree])
        rw [createFrom, ← heq, he]
        exact ih (h.set hne .directory) hok
      · rw [he] at hn
        cases n <;> cases hn

end Extends

end FileTree

end TripleIndex
