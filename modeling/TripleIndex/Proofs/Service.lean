import TripleIndex.Proofs.Alias
import TripleIndex.Proofs.Failure
import TripleIndex.Proofs.Submission

/-!
# What requests leave behind

A request can come to four things: it is turned down, it asks the index and so may load it, it posts
an entry that cannot be recorded, or it posts one that is (`Http.Handled`).  Only the last is
answered by 201, and only it changes any octets: one line is added to the log.

Requests come in any order, and between them the storage may be changed from outside.  All along,
the index and its storage are those of a session (`Session.exists_after_visited`).
-/

namespace TripleIndex

namespace Http

/-! ## Outcomes -/

theorem Refusal.status_response_ne (refusal : Refusal) : refusal.response.status ≠ 201 := by
  cases refusal with
  | failed e => cases e <;> simp [response, Response.json, statusOf]
  | _ => simp [response, Response.plain]

/-- An outcome that creates nothing and at most loads the index. -/
structure Quiet (x : Index) (a : Access) (o : Outcome) : Prop where
  state : o.2 = (x, a) ∨ o.2 = (x.settle a, a)
  status : (responseOf o).status ≠ 201

variable {r : Request} {x : Index} {a : Access}

theorem quiet_refused (refusal : Refusal) : Quiet x a (.error refusal, x, a) :=
  ⟨.inl rfl, refusal.status_response_ne⟩

/-- A question to the index is quiet, if its answers are. -/
theorem quiet_reply {α : Type} {question : Index → α} {answer : α → Except Refusal Response}
    (hanswer : ∀ v response, answer v = .ok response → response.status ≠ 201) :
    Quiet x a (reply a (x.ask a question) answer) := by
  have hsettled := Index.ask_snd x a question
  generalize x.ask a question = asked at hsettled
  obtain ⟨result, i⟩ := asked
  obtain rfl : i = x.settle a := hsettled
  cases result with
  | error e => exact ⟨.inr rfl, Refusal.status_response_ne _⟩
  | ok v =>
    refine ⟨.inr rfl, ?_⟩
    rw [reply, responseOf]
    dsimp only
    cases hv : answer v with
    | ok response => exact hanswer v response hv
    | error refusal => exact refusal.status_response_ne

theorem status_foundResponse_ne (is : List Identifier) (response : Response)
    (h : foundResponse is = .ok response) : response.status ≠ 201 := by
  cases h
  simp [Response.json]

/-! ## Routes -/

theorem quiet_answerQuery : Quiet x a (answerQuery r x a) := by
  rw [answerQuery]
  cases readBody PatternQuery.reader r with
  | error refusal => exact quiet_refused refusal
  | ok q => exact quiet_reply status_foundResponse_ne

theorem quiet_answerQueryLine : Quiet x a (answerQueryLine r x a) := by
  rw [answerQueryLine]
  cases readBody LineQuery.reader r with
  | error refusal => exact quiet_refused refusal
  | ok q =>
    dsimp only
    cases QueryLine.parse q.line with
    | error f => exact quiet_refused _
    | ok s => exact quiet_reply status_foundResponse_ne

theorem quiet_answerItem (encoded : List Char) : Quiet x a (answerItem encoded x a) := by
  rw [answerItem]
  cases readId encoded with
  | error refusal => exact quiet_refused refusal
  | ok id =>
    refine quiet_reply ?_
    rintro (_ | e) response h
    · cases h
    · cases h
      simp

theorem quiet_answerSubjects (query : List Char) : Quiet x a (answerSubjects query x a) := by
  rw [answerSubjects]
  cases readType query with
  | error refusal => exact quiet_refused refusal
  | ok type? =>
    refine quiet_reply ?_
    rintro ps response h
    cases h
    simp [Response.json]

theorem quiet_answerOntology : Quiet x a (answerOntology x a) := by
  rw [answerOntology]
  cases a.read ontologyKey with
  | error f => exact quiet_refused _
  | ok octets => exact ⟨.inl rfl, by simp [responseOf, Response.json]⟩

theorem quiet_answerHealth : Quiet x a (answerHealth x a) := by
  refine quiet_reply ?_
  rintro s response h
  cases h
  simp [Response.json]

/-- All routes but one only ask. -/
theorem quiet_answerRoute {route : Route} (h : route ≠ .items) :
    Quiet x a (answerRoute route r x a) := by
  cases route with
  | query => exact quiet_answerQuery
  | queryLine => exact quiet_answerQueryLine
  | items => exact (h rfl).elim
  | item id => exact quiet_answerItem id
  | subjects => exact quiet_answerSubjects _
  | ontology => exact quiet_answerOntology
  | health => exact quiet_answerHealth

theorem path_of_items {path : List Char} (h : Route.ofPath? path = some .items) :
    path = "/api/graph/items".toList := by
  rw [Route.ofPath?] at h
  split at h
  · cases h
  · cases h
  · rename_i hpath
    rw [← hpath, String.toList_ofList]
  · cases h
  · cases h
  · cases h
  · dsimp only at h
    split at h <;> cases h

/-! ## Requests -/

/-- A request that posts an entry, with a kind and a name, to where entries are posted. -/
structure Posts (r : Request) (u : Submission) : Prop where
  method : r.method = "POST"
  path : (Target.ofText r.target).path = "/api/graph/items".toList
  body : readBody Submission.reader r = .ok u
  kind : u.identifier.kind ≠ ""
  name : u.identifier.name ≠ ""

/-- A body that is read has been sent as JSON, and within the limit. -/
theorem readBody_eq_ok {α : Type} {reader : Json.Reader α} {a : α}
    (h : readBody reader r = .ok a) :
    r.contentType.any MediaType.isJson = true ∧ r.body.length ≤ bodyLimit := by
  rw [readBody] at h
  split at h
  · cases h
  rename_i hjson
  split at h
  · cases h
  rename_i hsize
  exact ⟨by simpa using hjson, Nat.not_lt.mp hsize⟩

/-- Where the record of an entry without a score is posted, it is this entry that is posted. -/
theorem Posts.eq_of_body {u v : Submission} (h : Posts r u) (hscore : v.identifier.score = none)
    (hbody : r.body = Text.Utf8.encode v.record) : u = v := by
  obtain ⟨hjson, hsize⟩ := readBody_eq_ok h.body
  have hread := readBody_of_decode hjson hbody hsize (Submission.decode_record hscore)
  exact Except.ok.inj (h.body.symm.trans hread)

/-- The answer to an entry that has been recorded. -/
def createdResponse (u : Submission) : Response :=
  .json 201 [Json.member "id" (Json.string u.identifier.rendering)]

/-- A request that posts an entry without statements. -/
def Request.posting (kind name : String) : Request where
  method := "POST"
  target := "/api/graph/items".toList
  contentType := some "application/json".toList
  body := Text.Utf8.encode <| Json.object [Json.member "identifier" <|
    Json.object [Json.member "type" (Json.string kind), Json.member "name" (Json.string name)]]

/-- What a request can come to. -/
inductive Handled (r : Request) (x : Index) (a : Access) : Response × Index × Access → Prop where
  | kept {response : Response} (hstatus : response.status ≠ 201) : Handled r x a (response, x, a)
  | asked {response : Response} (hstatus : response.status ≠ 201) :
      Handled r x a (response, x.settle a, a)
  | failed {response : Response} {u : Submission} {e : Error} {i : Index} {b : Access}
      (hstatus : response.status ≠ 201) (hadd : x.add a u = (.error e, i, b)) :
      Handled r x a (response, i, b)
  | filed {u : Submission} {i : Index} {b : Access} (hposts : Posts r u)
      (hadd : x.add a u = (.ok (), i, b)) : Handled r x a (createdResponse u, i, b)

theorem Quiet.handled {o : Outcome} (h : Quiet x a o) {response : Response}
    (hresponse : response.status = (responseOf o).status) : Handled r x a (response, o.2) := by
  have hstatus : response.status ≠ 201 := hresponse ▸ h.status
  rcases h.state with hstate | hstate
  · rw [hstate]
    exact .kept hstatus
  · rw [hstate]
    exact .asked hstatus

theorem checkNonempty_eq_ok {kind name : String} {i : Identifier}
    (h : Identifier.checkNonempty kind name = .ok i) : kind ≠ "" ∧ name ≠ "" := by
  rw [Identifier.checkNonempty] at h
  split at h
  · cases h
  · split at h
    · cases h
    · rename_i hkind hname
      exact ⟨hkind, hname⟩

theorem checkNonempty_of_ne {kind name : String} (hkind : kind ≠ "") (hname : name ≠ "") :
    Identifier.checkNonempty kind name = .ok { kind := kind, name := name } := by
  rw [Identifier.checkNonempty, if_neg hkind, if_neg hname]

theorem handled_answerItems (hmethod : r.method = "POST")
    (hpath : (Target.ofText r.target).path = "/api/graph/items".toList) :
    Handled r x a (responseOf (answerItems r x a), (answerItems r x a).2) := by
  rw [answerItems]
  cases hbody : readBody Submission.reader r with
  | error refusal => exact .kept refusal.status_response_ne
  | ok u =>
    dsimp only
    cases hcheck : Identifier.checkNonempty u.identifier.kind u.identifier.name with
    | error e => exact .kept (Refusal.status_response_ne _)
    | ok i =>
      dsimp only
      obtain ⟨hkind, hname⟩ := checkNonempty_eq_ok hcheck
      cases hadd : x.add a u with
      | mk result rest =>
        cases result with
        | error e => exact .failed (Refusal.status_response_ne _) hadd
        | ok done => exact .filed ⟨hmethod, hpath, hbody, hkind, hname⟩ hadd

theorem status_withoutBody (response : Response) :
    response.withoutBody.status = response.status := by
  rw [Response.withoutBody]
  split <;> rfl

/-- Every request comes to one of the four things. -/
theorem handled_respond (r : Request) (x : Index) (a : Access) :
    Handled r x a (respond r x a) := by
  rw [respond]
  split
  · exact .kept (by simp [Response.plain])
  cases hroute : Route.ofPath? (Target.ofText r.target).path with
  | none => exact .kept (Refusal.status_response_ne _)
  | some route =>
    dsimp only
    -- Only one route does more than ask, and it is never asked for the head of its answer.
    by_cases hitems : route = .items
    · subst hitems
      by_cases hmethod : r.method = (if Route.items.takesBody then "POST" else "GET")
      · rw [if_pos hmethod]
        exact handled_answerItems hmethod (path_of_items hroute)
      · rw [if_neg hmethod, if_neg (by simp [Route.takesBody])]
        exact .kept (Refusal.status_response_ne _)
    · have hquiet : Quiet x a (answerRoute route r x a) := quiet_answerRoute hitems
      by_cases hmethod : r.method = (if route.takesBody then "POST" else "GET")
      · rw [if_pos hmethod]
        exact hquiet.handled rfl
      · rw [if_neg hmethod]
        by_cases hhead : r.method = "HEAD" ∧ !route.takesBody
        · rw [if_pos hhead]
          exact hquiet.handled (status_withoutBody _)
        · rw [if_neg hhead]
          exact .kept (Refusal.status_response_ne _)

end Http

/-! ## Visits -/

/-- What a service can meet. -/
inductive Visit where
  | request (r : Http.Request)
  /-- What else can happen in its session. -/
  | event (e : Event)

namespace Session

/-- The response to a request, and the session behind it. -/
def respond (x : Session) (r : Http.Request) : Http.Response × Session :=
  let o := Http.respond r x.index x.access
  (o.1, ⟨o.2.1, o.2.2⟩)

def visit (x : Session) : Visit → Session
  | .request r => (x.respond r).2
  | .event e => x.step e

/-- The session behind a run of visits. -/
def visited (x : Session) (visits : List Visit) : Session := visits.foldl visit x

/-- What a visit does to a session, a run of events could have done. -/
theorem exists_after_visit (x : Session) (v : Visit) : ∃ events, x.after events = x.visit v := by
  cases v with
  | event e => exact ⟨[e], rfl⟩
  | request r =>
    have handled := Http.handled_respond r x.index x.access
    rw [visit, respond]
    generalize Http.respond r x.index x.access = o at handled
    cases handled with
    | kept => exact ⟨[], rfl⟩
    | asked =>
      refine ⟨[.perform .stats], ?_⟩
      rw [after_cons, after_nil, step, Operation.perform, Index.stats, Index.ask_snd]
    | @failed _ u _ _ _ hstatus hadd =>
      refine ⟨[.perform (.add u)], ?_⟩
      rw [after_cons, after_nil, step, Operation.perform, hadd]
    | @filed u _ _ hposts hadd =>
      refine ⟨[.perform (.add u)], ?_⟩
      rw [after_cons, after_nil, step, Operation.perform, hadd]

theorem exists_after_visited (x : Session) (visits : List Visit) :
    ∃ events, x.after events = x.visited visits := by
  induction visits generalizing x with
  | nil => exact ⟨[], rfl⟩
  | cons v visits ih =>
    obtain ⟨events, hevents⟩ := x.exists_after_visit v
    obtain ⟨more, hmore⟩ := ih (x.visit v)
    refine ⟨events ++ more, ?_⟩
    rw [after_append, hevents, hmore]
    rfl

/-! ## What is left behind -/

/-- Nothing has changed from one session to the other, but that the index may have been loaded. -/
structure Spares (x y : Session) : Prop where
  filed : ∀ key, y.access.storage.filed? key = x.access.storage.filed? key
  kept : ∀ key octets, x.access.storage.Keeps key octets → y.access.storage.Keeps key octets
  index : y.index = x.index ∨ x.index.catalog.loaded = false ∧ x.index.load x.access = .ok y.index

/-- An entry has been filed, and nothing else has changed from one session to the other. -/
structure Files (x y : Session) (u : Submission) : Prop where
  /-- Behind what the log was, there is the record of the entry as one line. -/
  log : y.access.storage.Keeps x.index.catalog.key
    ((x.access.storage.filed? x.index.catalog.key).getD [] ++
      Text.Utf8.encode ((Entry.ofSubmission u).record ++ ['\n']))
  line : '\n' ∉ (Entry.ofSubmission u).record
  /-- Unless it has a score, the entry is read from the line again. -/
  legible : u.identifier.score = none →
    Json.decode Entry.reader (Entry.ofSubmission u).record =
      .ok ⟨u.identifier.rendering, u.identifier, u.statements⟩
  /-- What is filed under other keys is as before, unless they stand for the log, too. -/
  others : ∀ key, ¬ x.access.storage.Alias key x.index.catalog.key →
    y.access.storage.filed? key = x.access.storage.filed? key
  /-- The entry is found under its id, and the storage plays no part in that. -/
  entry : ∀ a, y.index.get? a u.identifier.rendering =
    (.ok (some ⟨u.identifier.rendering, u.identifier, u.statements⟩), y.index)

theorem spares_settle (i : Index) (a : Access) : Spares ⟨i, a⟩ ⟨i.settle a, a⟩ where
  filed _ := rfl
  kept _ _ h := h
  index := i.settle_eq_or_fresh a

variable {i i' : Index} {a a' : Access} {u : Submission}

theorem spares_of_add {e : Error} (h : i.add a u = (.error e, i', a')) :
    Spares ⟨i, a⟩ ⟨i', a'⟩ := by
  rcases Index.add_eq_error h with ⟨-, rfl, rfl⟩ | ⟨f, -, hj, hwritten⟩
  · exact ⟨fun _ ↦ rfl, fun _ _ hk ↦ hk, .inl rfl⟩
  · obtain ⟨-, hfiled, hkept, -⟩ := Access.append_eq_error hwritten
    exact ⟨hfiled, hkept, Index.eq_or_fresh_of_ensureLoaded hj⟩

theorem files_of_add (hi : i.Consistent) (h : i.add a u = (.ok (), i', a')) :
    Files ⟨i, a⟩ ⟨i', a'⟩ u := by
  obtain ⟨j, hj, hwritten, rfl⟩ := Index.eq_of_add h
  -- The log is that of the index as it was, but the entry goes to what has been loaded of it.
  rw [Index.key_of_ensureLoaded hj] at hwritten
  obtain ⟨-, hstored⟩ := Access.append_eq_ok hwritten
  refine ⟨Storage.keeps_of_append hstored, Entry.feed_notMem_record _, fun hscore ↦ ?_,
    fun key hkey ↦ Storage.filed?_of_append hstored hkey, fun b ↦ ?_⟩
  · rw [Entry.decode_record, Entry.reread_of_none hscore]
    rfl
  have hloaded : (j.enter (.ofSubmission u)).catalog.loaded = true := by
    rw [Index.enter_loaded]
    exact Index.loaded_of_ensureLoaded hj
  rw [Index.get?, Index.ask_eq_ok_iff, Index.enter_entries]
  exact ⟨Index.ensureLoaded_of_loaded hloaded b,
    (hi.ensureLoaded hj).entries.get?_put (.ofSubmission u)⟩

/-- Whatever a service has met, a request that is not answered by 201 leaves everything as it is,
but that it may load the index; and one that is has posted an entry, which is now on record. -/
theorem spares_or_files {s : Settings} {x : Session} (hx : x.Opens s) (visits : List Visit)
    (r : Http.Request) :
    (x.visited visits).index.catalog.key = s.indexKey ∧
      (((x.visited visits).respond r).1.status ≠ 201 →
        (x.visited visits).Spares ((x.visited visits).respond r).2) ∧
      (((x.visited visits).respond r).1.status = 201 →
        ∃ u, Http.Posts r u ∧
          (∀ v : Submission, v.identifier.score = none →
            r.body = Text.Utf8.encode v.record → u = v) ∧
          ((x.visited visits).respond r).1 = Http.createdResponse u ∧
          (x.visited visits).Files ((x.visited visits).respond r).2 u) := by
  obtain ⟨events, hevents⟩ := x.exists_after_visited visits
  have hconsistent := Index.consistent_after hx events
  have hkey := Index.key_after hx events
  rw [hevents] at hconsistent hkey
  refine ⟨hkey, ?_⟩
  generalize x.visited visits = y at hconsistent
  obtain ⟨i, a⟩ := y
  have handled := Http.handled_respond r i a
  rw [respond]
  dsimp only
  generalize Http.respond r i a = o at handled
  cases handled with
  | kept hstatus =>
    exact ⟨fun _ ↦ ⟨fun _ ↦ rfl, fun _ _ h ↦ h, .inl rfl⟩, fun h ↦ (hstatus h).elim⟩
  | asked hstatus => exact ⟨fun _ ↦ spares_settle i a, fun h ↦ (hstatus h).elim⟩
  | failed hstatus hadd => exact ⟨fun _ ↦ spares_of_add hadd, fun h ↦ (hstatus h).elim⟩
  | filed hposts hadd =>
    exact ⟨fun h ↦ (h rfl).elim, fun _ ↦ ⟨_, hposts, fun _ ↦ hposts.eq_of_body, rfl,
      files_of_add hconsistent hadd⟩⟩

/-- An entry with statements, of the kind given. -/
def remark (kind : String) : Submission :=
  ⟨{ kind, name := "b" }, [⟨"ex:a", "type", "Message"⟩, ⟨"ex:a", "label", "\"ü\""⟩]⟩

/-- An entry without a kind is refused, and one with a kind behind it is filed as it stands in the
body. -/
theorem spares_or_files_posting :
    blank.Opens {} ∧
      (blank.respond (.filing (remark ""))).1.status = 400 ∧
      blank.Spares (blank.respond (.filing (remark ""))).2 ∧
      ((blank.visited [.request (.filing (remark ""))]).respond
        (.filing (remark "a"))).1 = Http.createdResponse (remark "a") ∧
      Http.Posts (.filing (remark "a")) (remark "a") ∧
      (blank.visited [.request (.filing (remark ""))]).Files
        ((blank.visited [.request (.filing (remark ""))]).respond (.filing (remark "a"))).2
          (remark "a") := by
  have hrefused : (blank.respond (.filing (remark ""))).1.status = 400 := by decide +kernel
  have hcreated : ((blank.visited [.request (.filing (remark ""))]).respond
      (.filing (remark "a"))).1.status = 201 := by decide +kernel
  have hspares : blank.Spares (blank.respond (.filing (remark ""))).2 :=
    (spares_or_files opens_blank [] _).2.1 (by rw [visited, List.foldl_nil, hrefused]; decide)
  obtain ⟨u, hposts, hread, hresponse, hfiles⟩ := (spares_or_files opens_blank _ _).2.2 hcreated
  obtain rfl : u = remark "a" := hread _ rfl rfl
  exact ⟨opens_blank, hrefused, hspares, hresponse, hposts, hfiles⟩

/-- A session with the standard settings that begins over a directory that does not exist yet. -/
def blankDirectory : Session :=
  { blank with access := { storage := .directory ⟨{}, Path.ofString "data"⟩ } }

/-- In a directory the log has other keys, too, and an entry that is filed shows under them. -/
theorem alias_changed_by_posting :
    blankDirectory.Opens {} ∧ "./index.jsonl" ≠ blankDirectory.index.catalog.key ∧
      (blankDirectory.respond (.posting "a" "b")).1.status = 201 ∧
      blankDirectory.access.storage.filed? "./index.jsonl" = none ∧
      (blankDirectory.respond (.posting "a" "b")).2.access.storage.filed? "./index.jsonl" =
        some (Log.octets (.ofSubmission ⟨{ kind := "a", name := "b" }, []⟩)) := by
  refine ⟨rfl, by decide +kernel, by decide +kernel, by decide +kernel, by decide +kernel⟩

end Session

end TripleIndex
