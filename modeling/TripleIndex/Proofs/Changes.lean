import TripleIndex.Proofs.Neighbours

/-!
# Changes at the end of a path

A change of the file of a key is the creation of directories, and then one change of what stands at
the end of a path.  Each of these leaves whatever stands elsewhere, and this composes
(`FileTree.ChangedAt`), whether or not the change as a whole succeeds
(`Directory.changedAt_update`).

Files that stand elsewhere are still found behind such a change, under every path that led to them:
the directories on the way to them stand where they stood, and none of the new ones is in the way.
-/

namespace TripleIndex

namespace FileTree

variable {p p' : Path} {t u v : FileTree} {q r : Place} {name : FileName} {octets : List UInt8}

theorem locate_of_read (h : t.read p = .ok octets) :
    ∃ q, t.locate p = .ok (.file q octets) := by
  rw [FileTree.read] at h
  cases hl : t.locate p with
  | error f => simp [hl] at h
  | ok s =>
    cases s with
    | directory q => simp [hl] at h
    | vacant q => simp [hl] at h
    | file q os =>
      obtain rfl : os = octets := by simpa [hl] using h
      exact ⟨q, rfl⟩

/-! ## What a change leaves -/

/-- Nothing has changed but what stands at the end of a path, where no directory has been, except
that directories have been created where the path passes. -/
structure ChangedAt (p : Path) (t u : FileTree) : Prop where
  here : u.here = t.here
  directory : ∀ r, t.node? r = some .directory → u.node? r = some .directory
  others : ∀ r, r ≠ Path.place (t.start p) p → u.node? r = t.node? r ∨
    t.node? r = none ∧ u.node? r = some .directory ∧
      ∃ way, way <+: p ∧ r = Path.place (t.start p) way

namespace ChangedAt

theorem refl (p : Path) (t : FileTree) : ChangedAt p t t := ⟨rfl, fun _ h ↦ h, fun _ _ ↦ .inl rfl⟩

theorem start_eq (h : ChangedAt p t u) (p' : Path) : u.start p' = t.start p' := by
  rw [FileTree.start, FileTree.start, h.here]

theorem trans (h : ChangedAt p t u) (h' : ChangedAt p u v) : ChangedAt p t v where
  here := h'.here.trans h.here
  directory r hr := h'.directory r (h.directory r hr)
  others r hr := by
    have hothers := h'.others r
    rw [h.start_eq] at hothers
    rcases hothers hr with hsame' | ⟨hfree', hnew', hway'⟩
    · rcases h.others r hr with hsame | ⟨hfree, hnew, hway⟩
      · exact .inl (hsame'.trans hsame)
      · exact .inr ⟨hfree, hsame'.trans hnew, hway⟩
    · rcases h.others r hr with hsame | ⟨-, hnew, -⟩
      · exact .inr ⟨hsame.symm.trans hfree', hnew', hway'⟩
      · rw [hnew] at hfree'
        cases hfree'

theorem of_createAll_parent (t : FileTree) (p : Path) :
    ChangedAt p t (t.createAll p.parent).2 := by
  rcases t.createAll_parent_cases p with hsame | ⟨way, hway, -, hmade⟩
  · rw [hsame]
    exact .refl p t
  · rw [hmade]
    refine ⟨here_createFrom t _ way, fun r hr ↦ node?_createFrom_of_directory hr _ way, ?_⟩
    intro r _
    rcases t.node?_createFrom_cases (t.start p) way r with
      hsame | ⟨hfree, hnew, part, hpart, hplace⟩
    · exact .inl hsame
    · exact .inr ⟨hfree, hnew, part, hpart.trans hway, hplace⟩

theorem of_update {change : List UInt8 → List UInt8} (h : t.update p change = .ok u) :
    ChangedAt p t u := by
  obtain ⟨s, octets, hlocate, hs, rfl⟩ := exists_set_of_update h
  obtain ⟨hplace, hstands⟩ := walk_spec (locate_eq_ok hlocate).2
  have hfree := node?_place_ne hstands hs
  have hset := fun r ↦ node?_set t s.place r (.file octets) (ne_nil_of_node? hfree)
  refine ⟨rfl, ?_, ?_⟩
  · intro r hr
    rw [hset, if_neg, hr]
    rintro rfl
    exact hfree hr
  · intro r hr
    left
    rw [hset, if_neg]
    rintro rfl
    exact hr hplace

/-! ### Reading other files -/

variable (h : ChangedAt p t u)
include h

theorem enter_directory (he : t.enter q name = .ok (.directory r)) :
    u.enter q name = .ok (.directory r) := by
  unfold enter at he ⊢
  split_ifs at he ⊢ with hidle hup hlong
  · exact he
  · exact he
  · cases hn : t.node? (q ++ [name]) with
    | none => simp [hn] at he
    | some n =>
      cases n with
      | directory =>
        simp only [h.directory _ hn]
        simpa [hn] using he
      | file octets => simp [hn] at he

theorem enter_file (he : t.enter q name = .ok (.file r octets))
    (hr : r ≠ Path.place (t.start p) p) : u.enter q name = .ok (.file r octets) := by
  have hfile : t.node? r = some (.file octets) := (enter_spec he).2
  have hsame : u.node? r = some (.file octets) := by
    rcases h.others r hr with hsame | ⟨hfree, -⟩
    · rw [hsame, hfile]
    · rw [hfile] at hfree
      cases hfree
  have hnext : r = Path.next q name := (enter_spec he).1
  unfold Path.next at hnext
  unfold enter at he ⊢
  split_ifs at he hnext ⊢ with hidle hup hlong
  · cases he
  · cases he
  · simp only [← hnext, hsame]

theorem walk_file (hw : t.walk q p' = .ok (.file r octets))
    (hr : r ≠ Path.place (t.start p) p) : u.walk q p' = .ok (.file r octets) := by
  induction p' generalizing q with
  | nil => cases hw
  | cons name p' ih =>
    rcases walk_cons hw with ⟨next, he, hrest⟩ | ⟨he, rfl⟩
    · rw [walk, h.enter_directory he]
      exact ih hrest
    · rw [walk, h.enter_file he hr]
      rfl

/-- Files at other places are read as before. -/
theorem read (hread : t.read p' = .ok octets)
    (hother : Path.place (t.start p') p' ≠ Path.place (t.start p) p) : u.read p' = .ok octets := by
  obtain ⟨r, hlocate⟩ := locate_of_read hread
  obtain ⟨hfault, hwalk⟩ := locate_eq_ok hlocate
  have hplace : r = Path.place (t.start p') p' := (walk_spec hwalk).1
  rw [← hplace] at hother
  rw [FileTree.read, locate, hfault, h.start_eq]
  dsimp only
  rw [h.walk_file hwalk hother]

end ChangedAt

end FileTree

/-! ## Changes of the file of a key -/

/-- A change of the file of a key leaves what stands elsewhere, also if it fails. -/
theorem Directory.changedAt_update (d : Directory) (action : FileAction) (key : String)
    (change : List UInt8 → List UInt8) :
    ∃ t, (d.update action key fun t p ↦ t.update p change).2 = { d with files := t } ∧
      FileTree.ChangedAt (d.root.join (Path.ofString key)) d.files t := by
  have hcreated := FileTree.ChangedAt.of_createAll_parent d.files (d.root.join (Path.ofString key))
  generalize hresult : (d.update action key fun t p ↦ t.update p change) = result
  obtain ⟨done, d'⟩ := result
  cases done with
  | ok _ =>
    obtain ⟨-, t, u, hmade, hchange, rfl⟩ := exists_of_update hresult
    rw [hmade] at hcreated
    exact ⟨u, rfl, hcreated.trans (.of_update hchange)⟩
  | error f =>
    rcases files_of_update_error hresult with rfl | ⟨-, rfl⟩
    · exact ⟨_, rfl, .refl _ _⟩
    · exact ⟨_, rfl, hcreated⟩

end TripleIndex
