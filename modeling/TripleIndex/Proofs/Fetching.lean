import TripleIndex.Proofs.Ingestion

/-!
# Fetching what has been posted

An entry that has been posted is answered by its id, and a client that asks for it writes the octets
of this id into a path.  Most of them have to be percent-encoded, some may be, and the digits have
either case: `Text.Percent.Encodes` says what may be written.  Whatever it is, the service reads the
id from it again (`Http.readId_of_encodes`).  Neither does it part the path, so that the request
gets to where entries are fetched (`Http.Route.ofPath?_item`).  Under the id stands the entry that
has been posted, even if it has taken the place of another one.  All that can keep an entry from
being posted, while the log can be loaded and appended to, is the length of its record.
-/

namespace TripleIndex

open Text

/-! ## Percent-encoded texts -/

namespace Text.Percent

/-- A text in which every octet is written as two digits behind a percent sign, or, where this is a
character that a path admits, as itself. -/
inductive Encodes : List UInt8 → List Char → Prop where
  | nil : Encodes [] []
  | plain {c : Char} {bs : List UInt8} {cs : List Char} (hascii : c.toNat < 0x80)
      (hpath : Iri.inPath c = true) (h : Encodes bs cs) :
      Encodes (UInt8.ofNat c.toNat :: bs) (c :: cs)
  | escaped {b : UInt8} {high low : Char} {bs : List UInt8} {cs : List Char}
      (hhigh : hexValue? high = some (b.toNat / 16)) (hlow : hexValue? low = some (b.toNat % 16))
      (h : Encodes bs cs) : Encodes (b :: bs) ('%' :: high :: low :: cs)

theorem encode_cons_of_ascii {c : Char} (h : c.toNat < 0x80) (cs : List Char) :
    Utf8.encode (c :: cs) = UInt8.ofNat c.toNat :: Utf8.encode cs := by
  have hle : c.val.toNat ≤ 0x7F := Nat.le_of_lt_succ h
  have hc : String.utf8EncodeChar c = [UInt8.ofNat c.toNat] := by
    rw [String.utf8EncodeChar, if_pos hle]
    rfl
  rw [Utf8.encode, List.flatMap_cons, hc]
  rfl

theorem toNat_ofNat_of_ascii {c : Char} (h : c.toNat < 0x80) :
    (UInt8.ofNat c.toNat).toNat = c.toNat :=
  UInt8.toNat_ofNat_of_lt' (Nat.lt_trans h (by decide))

theorem ascii_of_hexValue? {c : Char} {n : Nat} (h : hexValue? c = some n) : c.toNat < 0x80 := by
  simp only [hexValue?, Char.le_def, UInt32.le_iff_toNat_le] at h
  split at h
  · rename_i hdigit
    exact Nat.lt_of_le_of_lt hdigit.2 (by decide)
  · split at h
    · rename_i hlower
      exact Nat.lt_of_le_of_lt hlower.2 (by decide)
    · split at h
      · rename_i hupper
        exact Nat.lt_of_le_of_lt hupper.2 (by decide)
      · cases h

theorem octet?_of_hexValue? {b : UInt8} {high low : Char}
    (hhigh : hexValue? high = some (b.toNat / 16)) (hlow : hexValue? low = some (b.toNat % 16)) :
    octet? (.ofNat high.toNat) (.ofNat low.toNat) = some b := by
  have hvalue : b.toNat / 16 * 16 + b.toNat % 16 = b.toNat := Nat.div_add_mod' b.toNat 16
  rw [octet?, toNat_ofNat_of_ascii (ascii_of_hexValue? hhigh),
    toNat_ofNat_of_ascii (ascii_of_hexValue? hlow), Char.ofNat_toNat, Char.ofNat_toNat, hhigh, hlow]
  change some (UInt8.ofNat (b.toNat / 16 * 16 + b.toNat % 16)) = some b
  rw [hvalue, UInt8.ofNat_toNat]

namespace Encodes

variable {bs : List UInt8} {cs : List Char}

/-- The octets are read from the text again. -/
theorem decode_eq (h : Encodes bs cs) : decode (Utf8.encode cs) = bs := by
  induction h with
  | nil => rfl
  | @plain c bs cs hascii hpath h ih =>
    have hne : UInt8.ofNat c.toNat ≠ 0x25 := by
      intro heq
      have hpercent : c = '%' := by
        rw [← Char.ofNat_toNat c, ← toNat_ofNat_of_ascii hascii, heq]
        rfl
      rw [hpercent] at hpath
      exact absurd hpath (by decide)
    rw [encode_cons_of_ascii hascii, decode, ih]
    exact fun _ _ _ heq ↦ absurd heq hne
  | escaped hhigh hlow h ih =>
    rw [encode_cons_of_ascii (by decide), encode_cons_of_ascii (ascii_of_hexValue? hhigh),
      encode_cons_of_ascii (ascii_of_hexValue? hlow)]
    change decode (0x25 :: _) = _
    rw [decode, octet?_of_hexValue? hhigh hlow, ih]

/-- Nothing in the text ends a path. -/
theorem ne_mark (h : Encodes bs cs) : ∀ c ∈ cs, c ≠ '?' ∧ c ≠ '#' := by
  have hquestion : hexValue? '?' = none := by decide
  have hhash : hexValue? '#' = none := by decide
  have hdigit {c : Char} {n : Nat} (hc : hexValue? c = some n) : c ≠ '?' ∧ c ≠ '#' := by
    constructor
    · rintro rfl
      cases hquestion.symm.trans hc
    · rintro rfl
      cases hhash.symm.trans hc
  induction h with
  | nil => exact fun _ hc ↦ (List.not_mem_nil hc).elim
  | plain hascii hpath h ih =>
    refine List.forall_mem_cons.mpr ⟨?_, ih⟩
    constructor <;> rintro rfl <;> exact absurd hpath (by decide)
  | escaped hhigh hlow h ih =>
    exact List.forall_mem_cons.mpr ⟨by decide, List.forall_mem_cons.mpr ⟨hdigit hhigh,
      List.forall_mem_cons.mpr ⟨hdigit hlow, ih⟩⟩⟩

theorem ne_nil (h : Encodes bs cs) (hbs : bs ≠ []) : cs ≠ [] := by
  rintro rfl
  cases h
  exact hbs rfl

end Encodes

theorem hexValue?_upperHex {n : Nat} (h : n < 16) : hexValue? (upperHex n) = some n := by
  have hdigit : ∀ m : Fin 16, hexValue? (upperHex m.val) = some m.val := by decide
  exact hdigit ⟨n, h⟩

/-- Escaping every octet but those of unreserved characters is one way to write them. -/
theorem encodes_encode (bs : List UInt8) : Encodes bs (encode bs) := by
  induction bs with
  | nil => exact .nil
  | cons b bs ih =>
    have hlt := b.toNat_lt
    rw [encode, List.flatMap_cons, encodeOctet]
    split
    · rename_i h
      obtain ⟨hascii, hunreserved⟩ := (Bool.and_eq_true _ _).mp h
      have hlow : b.toNat < 0x80 := UInt8.lt_iff_toNat_lt.mp (of_decide_eq_true hascii)
      have hnat : (Char.ofNat b.toNat).toNat = b.toNat := Utf8.toNat_val_ofNat (.inl (by omega))
      have hiri : Iri.isUnreserved (Char.ofNat b.toNat) = true := hunreserved
      have hpath : Iri.inPath (Char.ofNat b.toNat) = true := by simp [Iri.inPath, Iri.inName, hiri]
      have hplain := Encodes.plain (hnat.symm ▸ hlow) hpath ih
      rwa [hnat, UInt8.ofNat_toNat] at hplain
    · exact .escaped (hexValue?_upperHex (by omega)) (hexValue?_upperHex (by omega)) ih

end Text.Percent

namespace Http

/-! ## Requests for an entry -/

theorem readId_of_encodes {id : String} {encoded : List Char}
    (h : Percent.Encodes (Utf8.encode id.toList) encoded) : readId encoded = .ok id := by
  rw [readId, h.decode_eq, Utf8.decode_encode]
  simp

theorem itemsPath_append_ne {encoded : List Char} {s : String}
    (h : ¬ Route.itemsPath <+: s.toList) :
    String.ofList (Route.itemsPath ++ encoded) ≠ s := by
  rintro rfl
  exact h ⟨encoded, by rw [String.toList_ofList]⟩

/-- What goes on behind the path of the entries leads to one of them. -/
theorem Route.ofPath?_item {encoded : List Char} (h : encoded ≠ []) :
    ofPath? (itemsPath ++ encoded) = some (.item encoded) := by
  rw [ofPath?]
  have hid : (itemsPath ++ encoded).drop itemsPath.length = encoded := List.drop_left
  have hprefix : itemsPath.isPrefixOf (itemsPath ++ encoded) = true :=
    List.isPrefixOf_iff_prefix.mpr (List.prefix_append _ _)
  have hsome : encoded.isEmpty = false := List.isEmpty_eq_false_iff.mpr h
  split
  case h_7 => simp only [hid, hprefix, hsome, Bool.not_false, Bool.and_self, if_true]
  all_goals
    rename_i hfixed
    exact (itemsPath_append_ne (by decide) hfixed).elim

theorem Target.ofText_item {encoded : List Char} (h : ∀ c ∈ encoded, c ≠ '?' ∧ c ≠ '#') :
    ofText (Route.itemsPath ++ encoded) = ⟨Route.itemsPath ++ encoded, []⟩ := by
  have hitems : (Route.itemsPath.all fun c ↦ c ≠ '?' ∧ c ≠ '#') = true := by decide
  have hall : ∀ c ∈ Route.itemsPath ++ encoded, c ≠ '?' ∧ c ≠ '#' :=
    List.forall_mem_append.mpr
      ⟨fun c hc ↦ of_decide_eq_true (List.all_eq_true.mp hitems c hc), h⟩
  have hhost : withoutHost (Route.itemsPath ++ encoded) = Route.itemsPath ++ encoded := if_pos rfl
  have hhash : (Route.itemsPath ++ encoded).takeWhile (· ≠ '#') = Route.itemsPath ++ encoded :=
    List.takeWhile_eq_self_iff.mpr fun c hc ↦ decide_eq_true (hall c hc).2
  have hpath : (Route.itemsPath ++ encoded).takeWhile (· ≠ '?') = Route.itemsPath ++ encoded :=
    List.takeWhile_eq_self_iff.mpr fun c hc ↦ decide_eq_true (hall c hc).1
  have hquery : (Route.itemsPath ++ encoded).dropWhile (· ≠ '?') = [] :=
    List.dropWhile_eq_nil_iff.mpr fun c hc ↦ decide_eq_true (hall c hc).1
  rw [ofText, hhost, hhash, hpath, hquery, List.drop_nil]

/-! ## Answers -/

variable {r : Request} {x i : Index} {a b : Access} {u : Submission}

/-- A request that asks for an entry, by any text that spells its id. -/
theorem respond_of_get {id : String} {encoded : List Char} {e : Entry} (hmethod : r.method = "GET")
    (htarget : r.target = Route.itemsPath ++ encoded) (hid : id ≠ "")
    (hencoded : Percent.Encodes (Utf8.encode id.toList) encoded)
    (hget : x.get? a id = (.ok (some e), x)) :
    respond r x a = (⟨200, .json e.record⟩, x, a) := by
  have hoctets : Utf8.encode id.toList ≠ [] := by
    intro hnone
    have htext : Utf8.decode (Utf8.encode id.toList) = .ok [] := by rw [hnone]; rfl
    rw [Utf8.decode_encode] at htext
    exact hid (String.toList_eq_nil_iff.mp (Except.ok.inj htext))
  have hroute : Route.ofPath? (Target.ofText r.target).path = some (.item encoded) := by
    rw [htarget, Target.ofText_item hencoded.ne_mark, Route.ofPath?_item (hencoded.ne_nil hoctets)]
  have hanswer : answerItem encoded x a = (.ok ⟨200, .json e.record⟩, x, a) := by
    rw [answerItem, readId_of_encodes hencoded]
    simp only [reply, hget]
  rw [respond, hroute, hmethod]
  simp only [Route.takesBody, answerRoute, hanswer]
  rfl

/-- The record of an entry posts it, unless it is too large for the service. -/
theorem posts_record (hmethod : r.method = "POST")
    (hpath : (Target.ofText r.target).path = "/api/graph/items".toList)
    (hjson : r.contentType.any MediaType.isJson = true) (hbody : r.body = Utf8.encode u.record)
    (hsize : r.body.length ≤ bodyLimit) (hscore : u.identifier.score = none)
    (hkind : u.identifier.kind ≠ "") (hname : u.identifier.name ≠ "") : Posts r u :=
  ⟨hmethod, hpath, readBody_of_decode hjson hbody hsize (Submission.decode_record hscore), hkind,
    hname⟩

theorem respond_of_posts (h : Posts r u) (hadd : x.add a u = (.ok (), i, b)) :
    respond r x a = (createdResponse u, i, b) := by
  rw [respond_of_post h.method h.path, answerItems, h.body]
  simp only [checkNonempty_of_ne h.kind h.name, hadd]
  rfl

end Http

namespace Index

/-- An index that can be loaded, and whose log can be appended to, takes every addition. -/
theorem exists_add_eq_ok {x j : Index} {a : Access} {u : Submission}
    (hload : x.ensureLoaded a = .ok j)
    (happend : (a.append x.catalog.key (Log.octets (.ofSubmission u))).1 = .ok ()) :
    ∃ i b, x.add a u = (.ok (), i, b) := by
  rw [← key_of_ensureLoaded hload] at happend
  rw [add_eq, hload]
  simp only [happend]
  exact ⟨_, _, rfl⟩

end Index

namespace Session

/-- Whatever a service has met, if its index loads and its log can be appended to, an entry whose
record is posted within the limit is created, and it is answered as it has been posted to whoever
asks for its id, however they write it. -/
theorem fetched_after_posting {s : Settings} {x : Session} (hx : x.Opens s) (visits : List Visit)
    {r : Http.Request} {u : Submission} (hmethod : r.method = "POST")
    (hpath : (Http.Target.ofText r.target).path = "/api/graph/items".toList)
    (hjson : r.contentType.any Http.MediaType.isJson = true) (hbody : r.body = Utf8.encode u.record)
    (hsize : r.body.length ≤ 2 * 1024 * 1024) (hscore : u.identifier.score = none)
    (hkind : u.identifier.kind ≠ "") (hname : u.identifier.name ≠ "") {j : Index}
    (hload : (x.visited visits).index.ensureLoaded (x.visited visits).access = .ok j)
    (happend : ((x.visited visits).access.append s.indexKey
      (Log.octets (.ofSubmission u))).1 = .ok ()) :
    ((x.visited visits).respond r).1 = Http.createdResponse u ∧
      (∀ (g : Http.Request) (encoded : List Char), g.method = "GET" →
        g.target = Http.Route.itemsPath ++ encoded →
        Percent.Encodes (Utf8.encode u.identifier.rendering.toList) encoded →
          ((x.visited visits).respond r).2.respond g =
            (⟨200, .json (Entry.record ⟨u.identifier.rendering, u.identifier, u.statements⟩)⟩,
              ((x.visited visits).respond r).2)) ∧
      Json.decode Entry.reader
          (Entry.record ⟨u.identifier.rendering, u.identifier, u.statements⟩) =
        .ok ⟨u.identifier.rendering, u.identifier, u.statements⟩ := by
  obtain ⟨events, hevents⟩ := x.exists_after_visited visits
  have hconsistent := Index.consistent_after hx events
  have hkey := Index.key_after hx events
  rw [hevents] at hconsistent hkey
  generalize x.visited visits = y at hconsistent hkey hload happend
  rw [← hkey] at happend
  obtain ⟨i, b, hadd⟩ := Index.exists_add_eq_ok hload happend
  have hposts := Http.posts_record hmethod hpath hjson hbody hsize hscore hkind hname
  have hposted : y.respond r = (Http.createdResponse u, ⟨i, b⟩) := by
    rw [respond, Http.respond_of_posts hposts hadd]
  have hfiles : y.Files ⟨i, b⟩ u := files_of_add hconsistent hadd
  have hid : u.identifier.rendering ≠ "" := by
    intro hempty
    have hpath : u.identifier.path = [] := by
      rw [← String.toList_ofList (l := u.identifier.path)]
      exact String.toList_eq_nil_iff.mpr hempty
    simp [Identifier.path, Identifier.ownSegment] at hpath
  rw [hposted]
  refine ⟨rfl, fun g encoded hmethod htarget hencoded ↦ ?_, hfiles.legible hscore⟩
  rw [respond, Http.respond_of_get hmethod htarget hid hencoded (hfiles.entry b)]

/-- An entry whose id has to be escaped nearly everywhere. -/
def awkward (statements : List Statement) : Submission :=
  ⟨{ kind := "a b", name := "100%?#\"ü", parent := some "x:p.q//r" }, statements⟩

/-- What is said in the entry that is posted. -/
def remarks : List Statement := [⟨"ex:a", "type", "Message"⟩, ⟨"ex:a", "label", "50% \"ü\"\n"⟩]

/-- Something else is posted under the id. -/
def occupying : List Visit := [.request (.filing (awkward [⟨"ex:a", "type", "Note"⟩]))]

/-- The entry is posted in place of the other one, and is fetched by its id. -/
theorem fetched_after_posting_awkward :
    blank.Opens {} ∧ (awkward remarks).identifier.rendering = "p.q/r/a b.100%?#\"ü" ∧
      (blank.visited occupying).index.catalog.entries.has "p.q/r/a b.100%?#\"ü" = true ∧
      ((blank.visited occupying).respond (.filing (awkward remarks))).1 =
        Http.createdResponse (awkward remarks) ∧
      (((blank.visited occupying).respond (.filing (awkward remarks))).2.respond
          { method := "GET", target := Http.Route.itemsPath ++
            Percent.encode (Utf8.encode "p.q/r/a b.100%?#\"ü".toList) }).1 =
        ⟨200, .json (Entry.record ⟨"p.q/r/a b.100%?#\"ü", (awkward remarks).identifier, remarks⟩)⟩ ∧
      Json.decode Entry.reader
          (Entry.record ⟨"p.q/r/a b.100%?#\"ü", (awkward remarks).identifier, remarks⟩) =
        .ok ⟨"p.q/r/a b.100%?#\"ü", (awkward remarks).identifier, remarks⟩ := by
  have hrendering : (awkward remarks).identifier.rendering = "p.q/r/a b.100%?#\"ü" := by decide
  have hsize : (Utf8.encode (awkward remarks).record).length ≤ 2 * 1024 * 1024 := by
    decide +kernel
  have hloaded : (blank.visited occupying).index.catalog.loaded = true := by decide +kernel
  have happend : ((blank.visited occupying).access.append "index.jsonl"
      (Log.octets (.ofSubmission (awkward remarks)))).1 = .ok () := by decide +kernel
  obtain ⟨hcreated, hfetched, hread⟩ := fetched_after_posting opens_blank occupying
    (r := .filing (awkward remarks)) rfl (by decide) rfl rfl hsize rfl (by decide) (by decide)
    (Index.ensureLoaded_of_loaded hloaded _) happend
  have hencoded := Percent.encodes_encode
    (Utf8.encode (awkward remarks).identifier.rendering.toList)
  rw [hrendering] at hfetched hencoded hread
  refine ⟨opens_blank, hrendering, by decide +kernel, hcreated, ?_, hread⟩
  exact congrArg Prod.fst (hfetched _ _ rfl rfl hencoded)

/-- An entry with a subject of some length. -/
def stretched (n : Nat) : Submission :=
  ⟨{ kind := "a", name := "b" }, [⟨String.ofList (List.replicate n 'n'), "type", "Message"⟩]⟩

theorem le_length_stretched (n : Nat) : n ≤ (Utf8.encode (stretched n).record).length := by
  have hsubject := Submission.length_subject_le (u := stretched n) (.head _)
  rwa [String.toList_ofList, List.length_replicate] at hsubject

/-- What could be recorded is refused if it is too large for the body of a request. -/
theorem refused_when_stretched :
    blank.Opens {} ∧ (∃ j, blank.index.ensureLoaded blank.access = .ok j) ∧
      (∀ octets, (blank.access.append "index.jsonl" octets).1 = .ok ()) ∧
      (stretched (2 * 1024 * 1024 + 1)).identifier = { kind := "a", name := "b" } ∧
      (blank.respond (.filing (stretched (2 * 1024 * 1024 + 1)))).1.status = 413 := by
  have hsize : Http.bodyLimit <
      (Http.Request.filing (stretched (2 * 1024 * 1024 + 1))).body.length :=
    Nat.lt_of_lt_of_le (by decide) (le_length_stretched _)
  have hread : Http.readBody Submission.reader (.filing (stretched (2 * 1024 * 1024 + 1))) =
      .error .tooLarge := by
    rw [Http.readBody, if_pos hsize]
    rfl
  refine ⟨opens_blank, ⟨_, rfl⟩, fun _ ↦ rfl, rfl, ?_⟩
  rw [respond, Http.respond_of_post rfl (by decide), Http.answerItems, hread]
  rfl

end Session

end TripleIndex
