import TripleIndex.Proofs.Consistency
import TripleIndex.Proofs.Storage

/-!
# Failed operations

An operation fails because a call to the storage is refused or fails, because the log is no text, or
because a line of it is no record.  Whatever it is, the octets in the storage are those before, and
so is the index, with one exception: an addition that is not recorded may have loaded the index
before (`Session.withstands_of_error`).

A directory that fails to append by itself may have created directories for the key.  What was to be
added plays no part in that.
-/

namespace TripleIndex

namespace Index

variable {i i' : Index} {a a' : Access} {u : Submission} {e : Error}

/-- An addition fails before anything happens, or because of the append to the log. -/
theorem add_eq_error (h : i.add a u = (.error e, i', a')) :
    (i.ensureLoaded a = .error e ∧ i' = i ∧ a' = a) ∨
      ∃ f, e = .storage f ∧ i.ensureLoaded a = .ok i' ∧
        a.append i'.catalog.key (Log.octets (.ofSubmission u)) = (.error f, a') := by
  rw [add_eq] at h
  cases hj : i.ensureLoaded a with
  | error f =>
    obtain ⟨hf, hi, ha⟩ := by simpa only [hj, Prod.mk.injEq, Except.error.injEq] using h
    exact .inl ⟨congrArg _ hf, hi.symm, ha.symm⟩
  | ok j =>
    simp only [hj] at h
    generalize hwritten : a.append j.catalog.key (Log.octets (.ofSubmission u)) = written at h
    obtain ⟨done, b⟩ := written
    cases done with
    | ok r => simp at h
    | error f =>
      obtain ⟨hf, rfl, rfl⟩ := by simpa only [Prod.mk.injEq, Except.error.injEq] using h
      exact .inr ⟨f, hf.symm, rfl, hwritten⟩

theorem ask_eq_error {α : Type} {answer : Index → α} (h : i.ask a answer = (.error e, i')) :
    i' = i := by
  rw [ask] at h
  cases hj : i.ensureLoaded a with
  | error f =>
    simp only [hj] at h
    exact (Prod.mk.inj h).2.symm
  | ok j =>
    simp only [hj] at h
    cases h

/-- Whether an addition fails, and what it leaves then, does not depend on what was to be added. -/
theorem add_of_add_eq_error (h : i.add a u = (.error e, i', a')) (v : Submission) :
    i.add a v = (.error e, i', a') := by
  rcases add_eq_error h with ⟨hj, rfl, rfl⟩ | ⟨f, rfl, hj, hwritten⟩
  · rw [add_eq, hj]
  · rw [add_eq, hj]
    simp only [(Access.append_eq_error hwritten).2.2.2 (Log.octets (.ofSubmission v))]

end Index

namespace Operation

/-- Only an addition changes anything before it fails. -/
theorem perform_eq_error {o : Operation} {i i' : Index} {a a' : Access} {e : Error}
    (h : o.perform i a = (.error e, i', a')) :
    ((∀ u, o ≠ .add u) ∧ i' = i ∧ a' = a) ∨
      ∃ u, o = .add u ∧ i.add a u = (.error e, i', a') := by
  have hask {α : Type} {answer : Index → α} {make : α → Answer}
      (hr : ((i.ask a answer).1.map make, (i.ask a answer).2, a) = (.error e, i', a')) :
      i' = i ∧ a' = a := by
    obtain ⟨hr, rfl, rfl⟩ := by simpa only [Prod.mk.injEq] using hr
    cases hanswer : (i.ask a answer).1 with
    | ok b =>
      rw [hanswer] at hr
      cases hr
    | error f => exact ⟨Index.ask_eq_error (Prod.ext hanswer rfl), rfl⟩
  cases o with
  | load =>
    rw [perform] at h
    cases hload : i.load a with
    | ok j => simp [hload] at h
    | error f =>
      simp only [hload, Prod.mk.injEq] at h
      exact .inl ⟨by simp, h.2.1.symm, h.2.2.symm⟩
  | add u =>
    refine .inr ⟨u, rfl, ?_⟩
    obtain ⟨hr, hrest⟩ := by simpa only [perform, Prod.mk.injEq] using h
    cases hadded : (i.add a u).1 with
    | ok b =>
      rw [hadded] at hr
      cases hr
    | error f =>
      rw [hadded] at hr
      cases hr
      exact Prod.ext hadded hrest
  | query p f => exact .inl ⟨by simp, hask h⟩
  | has id => exact .inl ⟨by simp, hask h⟩
  | get id => exact .inl ⟨by simp, hask h⟩
  | identifiers => exact .inl ⟨by simp, hask h⟩
  | typedSubjects type? => exact .inl ⟨by simp, hask h⟩
  | stats => exact .inl ⟨by simp, hask h⟩

end Operation

namespace Session

/-- What a failed operation leaves of a session. -/
structure Withstands (x : Session) (o : Operation) : Prop where
  /-- No octets have changed, whatever the key. -/
  filed : ∀ key, (x.step (.perform o)).access.storage.filed? key = x.access.storage.filed? key
  kept : ∀ key octets, x.access.storage.Keeps key octets →
    (x.step (.perform o)).access.storage.Keeps key octets
  /-- The storage has not been touched, unless it has failed to append by itself. -/
  access : (x.step (.perform o)).access = x.access ∨
    ∃ u f, o = .add u ∧ .append ∉ x.access.refused ∧
      x.access.storage.append x.index.catalog.key (Log.octets (.ofSubmission u)) =
        (.error f, (x.step (.perform o)).access.storage)
  /-- The index is as before, or as loading makes it where only the append has failed. -/
  index : (x.step (.perform o)).index = x.index ∨
    ∃ u f, o = .add u ∧ x.index.catalog.loaded = false ∧
      x.index.load x.access = .ok (x.step (.perform o)).index ∧
      x.access.append x.index.catalog.key (Log.octets (.ofSubmission u)) =
        (.error f, (x.step (.perform o)).access)
  /-- A loaded index answers every question as before. -/
  answers : x.index.catalog.loaded = true → ∀ {α : Type} (a : Access) (answer : Index → α),
    (x.step (.perform o)).index.ask a answer = (.ok (answer x.index), x.index)
  /-- What was to be added makes no difference. -/
  submission : ∀ u v, o = .add u → x.step (.perform (.add v)) = x.step (.perform o)
  /-- From here on everything goes as without the operation, or as with a load in its place. -/
  session : (x.step (.perform o)).access = x.access →
    x.step (.perform o) = x ∨ x.step (.perform o) = x.step (.perform .load)

theorem step_perform (x : Session) (o : Operation) :
    x.step (.perform o) =
      ⟨(o.perform x.index x.access).2.1, (o.perform x.index x.access).2.2⟩ := rfl

/-- An operation that changes nothing leaves what it should. -/
theorem withstands_of_step_eq_self {x : Session} {o : Operation} (h : x.step (.perform o) = x)
    (hadd : ∀ u v, o = .add u → x.step (.perform (.add v)) = x.step (.perform o)) :
    x.Withstands o where
  filed key := by rw [h]
  kept key octets hk := by rwa [h]
  access := .inl (congrArg Session.access h)
  index := .inl (congrArg Session.index h)
  answers hloaded α a answer := by
    rw [h]
    exact Index.ask_eq_ok_iff.mpr ⟨Index.ensureLoaded_of_loaded hloaded a, rfl⟩
  submission := hadd
  session _ := .inl h

/-- An addition whose append has failed leaves the index loaded, if it could be loaded, and nothing
else. -/
theorem withstands_of_append_eq_error {i j : Index} {a b : Access} {u : Submission}
    {f : StorageFault} (hstep : step ⟨i, a⟩ (.perform (.add u)) = ⟨j, b⟩)
    (hj : i.ensureLoaded a = .ok j)
    (hwritten : a.append i.catalog.key (Log.octets (.ofSubmission u)) = (.error f, b))
    (hadd : ∀ v, step ⟨i, a⟩ (.perform (.add v)) = step ⟨i, a⟩ (.perform (.add u))) :
    Withstands ⟨i, a⟩ (.add u) := by
  obtain ⟨haccess, hfiled, hkept, -⟩ := Access.append_eq_error hwritten
  have hsettled : i.catalog.loaded = true → j = i := by
    intro hloaded
    exact (Except.ok.inj ((Index.ensureLoaded_of_loaded hloaded a).symm.trans hj)).symm
  refine ⟨?_, ?_, ?_, ?_, ?_, fun _ v _ ↦ hadd v, ?_⟩
  · rw [hstep]
    exact hfiled
  · rw [hstep]
    exact hkept
  · rw [hstep]
    rcases haccess with hb | ⟨hpermit, hown⟩
    · exact .inl hb
    · exact .inr ⟨u, f, rfl, hpermit, hown⟩
  · rw [hstep]
    by_cases hloaded : i.catalog.loaded = true
    · exact .inl (hsettled hloaded)
    · rw [Bool.not_eq_true] at hloaded
      rw [Index.ensureLoaded_of_not_loaded hloaded] at hj
      exact .inr ⟨u, f, rfl, hloaded, hj, hwritten⟩
  · intro hloaded α c answer
    rw [hstep, hsettled hloaded]
    exact Index.ask_eq_ok_iff.mpr ⟨Index.ensureLoaded_of_loaded hloaded c, rfl⟩
  · rw [hstep]
    rintro rfl
    rcases Index.eq_or_load_of_ensureLoaded hj with rfl | hload
    · exact .inl rfl
    · refine .inr ?_
      simp only [step_perform, Operation.perform, hload]

/-- A failed operation leaves nothing half done. -/
theorem withstands_of_error {x : Session} {o : Operation} {e : Error}
    (h : (o.perform x.index x.access).1 = .error e) : x.Withstands o := by
  obtain ⟨i, a⟩ := x
  have hperform : o.perform i a = (.error e, (o.perform i a).2) := Prod.ext h rfl
  rcases Operation.perform_eq_error hperform with ⟨hne, hi, ha⟩ | ⟨u, rfl, hadd⟩
  · refine withstands_of_step_eq_self ?_ fun u v hu ↦ (hne u hu).elim
    rw [step_perform, hi, ha]
  · have hsame : ∀ v, step ⟨i, a⟩ (.perform (.add v)) = step ⟨i, a⟩ (.perform (.add u)) := by
      intro v
      have hother := congrArg Prod.snd (Index.add_of_add_eq_error hadd v)
      simp only [step_perform, Operation.perform, hother]
    rcases Index.add_eq_error hadd with ⟨-, hi, ha⟩ | ⟨f, -, hj, hwritten⟩
    · refine withstands_of_step_eq_self ?_ fun _ v _ ↦ hsame v
      rw [step_perform, hi, ha]
    · rw [Index.key_of_ensureLoaded hj] at hwritten
      exact withstands_of_append_eq_error rfl hj hwritten hsame

/-- A log whose last line is cut off, and a storage that is read only. -/
def damaged : Access where
  storage := .memory (Memory.put {} "index.jsonl"
    (Text.Utf8.encode (Entry.record ⟨"a.b", { kind := "a", name := "b" }, []⟩ ++ ['\n', '\x7b'])))
  refused := [.append]

/-- The log is damaged behind the back of a loaded index. -/
def damaging : List Event := [
  .perform (.add ⟨{ kind := "a", name := "b" }, [⟨"ex:a", "type", "Message"⟩]⟩),
  .outside damaged]

/-- A load of the damaged log fails, and so does an addition; nothing becomes of either. -/
theorem withstands_damaging :
    (Operation.load.perform (blank.after damaging).index (blank.after damaging).access).1 =
        .error .serialization ∧ (blank.after damaging).Withstands .load ∧
      ((Operation.add ⟨{ kind := "a", name := "c" }, []⟩).perform (blank.after damaging).index
          (blank.after damaging).access).1 =
        .error (.storage (.refused .append "index.jsonl")) ∧
      (blank.after damaging).Withstands (.add ⟨{ kind := "a", name := "c" }, []⟩) := by
  have hload : (Operation.load.perform (blank.after damaging).index
      (blank.after damaging).access).1 = .error .serialization :=
    (map_eq_error_iff (f := fun _ ↦ ())).mp (by decide +kernel)
  have hadd : ((Operation.add ⟨{ kind := "a", name := "c" }, []⟩).perform
      (blank.after damaging).index (blank.after damaging).access).1 =
        .error (.storage (.refused .append "index.jsonl")) :=
    (map_eq_error_iff (f := fun _ ↦ ())).mp (by decide +kernel)
  exact ⟨hload, withstands_of_error hload, hadd, withstands_of_error hadd⟩

end Session

end TripleIndex
