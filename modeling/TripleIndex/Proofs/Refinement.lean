import TripleIndex.Proofs.Mirror
import TripleIndex.Proofs.Utf8

/-!
# A directory in the place of a memory

Who calls a storage cannot tell a directory from a memory: when the root does not exist yet and the
keys in use can be files side by side, every call succeeds on both and gives the same reply
(`Storage.answers_directory`).  Searches find the written keys in the order of their octets, however
the file system orders its listings.

The directory mirrors the memory from the beginning, and after every call it mirrors it again
(`Directory.Follows.answer`).
-/

namespace TripleIndex

/-! ## Calls and replies -/

namespace Storage

/-- A call of a storage. -/
inductive Request where
  | put (key : String) (octets : List UInt8)
  | append (key : String) (octets : List UInt8)
  | read (key : String)
  | contains (key : String)
  /-- A search, for which directories are listed in a given way. -/
  | find (e : FileTree.Enumeration) (pre : String)

/-- What a request that succeeds gives back. -/
inductive Reply where
  | done
  | octets (content : Option (List UInt8))
  | flag (b : Bool)
  | keys (ks : List String)
deriving DecidableEq

namespace Request

/-- The keys that a request uses. -/
def keys : Request → List String
  | .put key _ | .append key _ | .read key | .contains key => [key]
  | .find _ _ => []

/-- The keys that a request writes octets under. -/
def written : Request → List String
  | .put key _ | .append key _ => [key]
  | .read _ | .contains _ | .find _ _ => []

end Request

def answer (s : Storage) : Request → Except StorageFault Reply × Storage
  | .put key octets => let r := s.put key octets; (r.1.map fun _ ↦ .done, r.2)
  | .append key octets => let r := s.append key octets; (r.1.map fun _ ↦ .done, r.2)
  | .read key => ((s.read key).map .octets, s)
  | .contains key => ((s.contains key).map .flag, s)
  | .find e pre => ((s.findBy e pre).map .keys, s)

/-- The answers to requests that are made one after the other. -/
def answers (s : Storage) : List Request → List (Except StorageFault Reply)
  | [] => []
  | r :: rs => (s.answer r).1 :: (s.answer r).2.answers rs

def after (s : Storage) (rs : List Request) : Storage := rs.foldl (fun s r ↦ (s.answer r).2) s

@[simp] theorem after_nil (s : Storage) : s.after [] = s := rfl

@[simp] theorem after_cons (s : Storage) (r : Request) (rs : List Request) :
    s.after (r :: rs) = (s.answer r).2.after rs := rfl

theorem answers_append (s : Storage) (rs qs : List Request) :
    s.answers (rs ++ qs) = s.answers rs ++ (s.after rs).answers qs := by
  induction rs generalizing s with
  | nil => rfl
  | cons r rs ih => rw [List.cons_append, answers, answers, ih, after_cons, List.cons_append]

theorem length_answers (s : Storage) (rs : List Request) : (s.answers rs).length = rs.length := by
  induction rs generalizing s with
  | nil => rfl
  | cons r rs ih => rw [answers, List.length_cons, ih, List.length_cons]

/-! ## The keys of a memory -/

/-- A request adds the keys that it writes under. -/
theorem answer_memory (m : Memory) (r : Request) :
    ∃ m', ((memory m).answer r).2 = memory m' ∧
      ∀ key, (∃ octets, m'.read key = some octets) ↔
        (∃ octets, m.read key = some octets) ∨ key ∈ r.written := by
  have hput (k : String) (os : List UInt8) (key : String) :
      (∃ octets, (m.put k os).read key = some octets) ↔
        (∃ octets, m.read key = some octets) ∨ key ∈ [k] := by
    rw [Memory.exists_read_put, List.mem_singleton, or_comm]
  cases r with
  | put k os => exact ⟨_, rfl, hput k os⟩
  | append k os => exact ⟨_, rfl, hput k _⟩
  | read k => exact ⟨m, rfl, fun key ↦ by simp [Request.written]⟩
  | contains k => exact ⟨m, rfl, fun key ↦ by simp [Request.written]⟩
  | find e pre => exact ⟨m, rfl, fun key ↦ by simp [Request.written]⟩

theorem after_memory (m : Memory) (rs : List Request) :
    ∃ m', (memory m).after rs = memory m' ∧
      ∀ key, (∃ octets, m'.read key = some octets) ↔
        (∃ octets, m.read key = some octets) ∨ key ∈ rs.flatMap Request.written := by
  induction rs generalizing m with
  | nil => exact ⟨m, rfl, fun key ↦ by simp⟩
  | cons r rs ih =>
    obtain ⟨m₁, h₁, hread₁⟩ := answer_memory m r
    obtain ⟨m₂, h₂, hread₂⟩ := ih m₁
    refine ⟨m₂, by rw [after_cons, h₁, h₂], fun key ↦ ?_⟩
    rw [hread₂, hread₁, List.flatMap_cons, List.mem_append, or_assoc]

/-- What a memory finds are the written keys that begin with the text, ordered by their octets. -/
theorem find_after_memory (rs : List Request) (e : FileTree.Enumeration) (pre : String) :
    ∃ ks, (((memory {}).after rs).answer (.find e pre)).1 = .ok (.keys ks) ∧
      ks.Pairwise (fun k l ↦ Text.Utf8.encode k.toList < Text.Utf8.encode l.toList) ∧
      ∀ key, key ∈ ks ↔ key ∈ rs.flatMap Request.written ∧ pre.toList <+: key.toList := by
  obtain ⟨m, hm, hread⟩ := after_memory {} rs
  refine ⟨m.find pre, by rw [hm]; rfl, ?_, fun key ↦ ?_⟩
  · exact (m.pairwise_find pre).imp fun h ↦ Text.Utf8.encode_lt_encode (String.lt_iff.mp h)
  · rw [Memory.mem_find_iff, hread]
    simp [Memory.read]

end Storage

/-! ## Keys side by side -/

/-- Keys that can all be files below a root: each of them fits, and none is on the way to another
one. -/
structure Path.Admits (root : Path) (keys : List String) : Prop where
  fits : ∀ key ∈ keys, root.Fits key
  apart : ∀ k ∈ keys, ∀ l ∈ keys, Path.ofString k <+: Path.ofString l → k = l

instance (root : Path) (keys : List String) : Decidable (root.Admits keys) :=
  decidable_of_iff ((∀ key ∈ keys, root.Fits key) ∧
      ∀ k ∈ keys, ∀ l ∈ keys, Path.ofString k <+: Path.ofString l → k = l)
    ⟨fun h ↦ ⟨h.1, h.2⟩, fun h ↦ ⟨h.fits, h.apart⟩⟩

namespace Directory

/-- A directory below a root mirrors a memory that has some of the keys only. -/
structure Follows (root : Path) (keys : List String) (d : Directory) (m : Memory) : Prop where
  named : root.text ≠ []
  root_eq : d.root = root
  mirrors : d.Mirrors m
  known : ∀ key octets, m.read key = some octets → key ∈ keys

namespace Follows

variable {root : Path} {keys : List String} {d : Directory} {m : Memory} {key : String}

theorem separate (h : Follows root keys d m) (hkeys : root.Admits keys) (hkey : key ∈ keys) :
    m.Separate key := by
  intro k octets hread
  have hk := h.known k octets hread
  exact ⟨hkeys.apart k hk key hkey, fun hpre ↦ (hkeys.apart key hkey k hk hpre).symm⟩

theorem fits (h : Follows root keys d m) (hkeys : root.Admits keys) (hkey : key ∈ keys) :
    d.root.Fits key := h.root_eq ▸ hkeys.fits key hkey

theorem put {d' : Directory} {octets : List UInt8} (h : Follows root keys d m) (hkey : key ∈ keys)
    (hroot : d'.root = d.root) (hd' : d'.Mirrors (m.put key octets)) :
    Follows root keys d' (m.put key octets) := by
  refine ⟨h.named, hroot.trans h.root_eq, hd', fun k os hread ↦ ?_⟩
  rw [Memory.read_put] at hread
  split at hread
  · rename_i heq
    exact heq ▸ hkey
  · exact h.known k os hread

/-- A directory replies to a request as the memory does that it mirrors, and mirrors it again. -/
theorem answer (h : Follows root keys d m) (hkeys : root.Admits keys) {r : Storage.Request}
    (hr : ∀ key ∈ r.keys, key ∈ keys) :
    ∃ reply d' m', (Storage.directory d).answer r = (.ok reply, .directory d') ∧
      (Storage.memory m).answer r = (.ok reply, .memory m') ∧ Follows root keys d' m' := by
  cases r with
  | put key octets =>
    have hkey := hr key (List.mem_singleton_self key)
    obtain ⟨d', hd', hroot, hmirrors⟩ :=
      h.mirrors.put_eq (h.fits hkeys hkey) (h.separate hkeys hkey) octets
    exact ⟨.done, d', m.put key octets, by simp only [Storage.answer, Storage.put, hd']; rfl, rfl,
      h.put hkey hroot hmirrors⟩
  | append key octets =>
    have hkey := hr key (List.mem_singleton_self key)
    obtain ⟨d', hd', hroot, hmirrors⟩ :=
      h.mirrors.append_eq (h.fits hkeys hkey) (h.separate hkeys hkey) octets
    exact ⟨.done, d', m.append key octets, by simp only [Storage.answer, Storage.append, hd']; rfl,
      rfl, h.put hkey hroot hmirrors⟩
  | read key =>
    have hkey := hr key (List.mem_singleton_self key)
    have hread := h.mirrors.read_eq (h.fits hkeys hkey) (h.separate hkeys hkey)
    exact ⟨.octets (m.read key), d, m, by simp only [Storage.answer, Storage.read, hread]; rfl, rfl,
      h⟩
  | contains key =>
    have hkey := hr key (List.mem_singleton_self key)
    have hcontains := h.mirrors.contains_eq (h.fits hkeys hkey) (h.separate hkeys hkey)
    exact ⟨.flag (m.contains key), d, m,
      by simp only [Storage.answer, Storage.contains, hcontains]; rfl, rfl, h⟩
  | find e pre =>
    have hfind := h.mirrors.find_eq (h.root_eq ▸ h.named)
      (fun k os hread ↦ h.fits hkeys (h.known k os hread)) e pre
    exact ⟨.keys (m.find pre), d, m, by simp only [Storage.answer, Storage.findBy, hfind]; rfl, rfl,
      h⟩

theorem answers (h : Follows root keys d m) (hkeys : root.Admits keys) {rs : List Storage.Request}
    (hrs : ∀ key ∈ rs.flatMap Storage.Request.keys, key ∈ keys) :
    ∃ replies : List Storage.Reply, (Storage.directory d).answers rs = replies.map .ok ∧
      (Storage.memory m).answers rs = replies.map .ok := by
  induction rs generalizing d m with
  | nil => exact ⟨[], rfl, rfl⟩
  | cons r rs ih =>
    rw [List.flatMap_cons] at hrs
    obtain ⟨reply, d', m', hd, hm, h'⟩ :=
      h.answer hkeys fun key hkey ↦ hrs key (List.mem_append_left _ hkey)
    obtain ⟨replies, hds, hms⟩ := ih h' fun key hkey ↦ hrs key (List.mem_append_right _ hkey)
    refine ⟨reply :: replies, ?_, ?_⟩
    · rw [Storage.answers, hd, hds, List.map_cons]
    · rw [Storage.answers, hm, hms, List.map_cons]

end Follows

/-! ## Roots that do not exist -/

/-- The root does not exist.  It can be created, and then nothing is below it.  The empty path would
not do, for it is that of no directory. -/
structure Fresh (d : Directory) : Prop where
  named : d.root.text ≠ []
  free : d.files.node? d.base = none
  creatable : (d.files.createAll d.root).1 = .ok ()
  bare : d.made.Bare d.base

/-- In a tree whose nodes stand in directories, a root without names that lead up is fresh when it
leads to nothing. -/
theorem fresh_of_missing {d : Directory} (hfiles : d.files.Closed) (hfault : d.root.fault? = none)
    (hnames : ∀ name ∈ d.root, Path.isUp name = false ∧ Path.octetCount name ≤ Path.nameLimit)
    (hmissing : d.files.locate d.root = .error .absent ∨
      ∃ q, d.files.locate d.root = .ok (.vacant q)) : d.Fresh := by
  have hlocate : d.files.locate d.root = d.files.walk (d.files.start d.root) d.root := by
    rw [FileTree.locate, hfault]
  have hcreate : d.files.createAll d.root = d.files.createFrom (d.files.start d.root) d.root := by
    rw [FileTree.createAll, hfault]
  rw [hlocate] at hmissing
  obtain ⟨hfree, hok, hbare⟩ := hfiles.createFrom_of_missing hnames hmissing
  refine ⟨fun hempty ↦ ?_, hfree, by rw [hcreate, hok], by rw [made, hcreate]; exact hbare⟩
  rw [FileTree.walk_of_isIdle (Path.isIdle_of_text_eq_nil hempty)] at hmissing
  simp at hmissing

theorem Fresh.mirrors {d : Directory} (h : d.Fresh) : d.Mirrors {} :=
  ⟨h.creatable, .of_bare h.bare, .inr fun _ ↦ by simp [Memory.read]⟩

theorem Fresh.follows {d : Directory} (h : d.Fresh) (keys : List String) :
    Follows d.root keys d {} :=
  ⟨h.named, rfl, h.mirrors, fun _ _ hread ↦ by simp [Memory.read] at hread⟩

end Directory

namespace Storage

/-- A directory whose root does not exist yet answers all requests as an empty memory does, if no
key in use is on the way to another one.  Nothing fails.  A search gives every key that has been
written and begins with the text, once and in the order of the octets, in whatever way directories
are listed. -/
theorem answers_directory {d : Directory} (hd : d.Fresh) {rs : List Request}
    (hkeys : d.root.Admits (rs.flatMap Request.keys)) :
    ∃ replies : List Reply,
      (directory d).answers rs = replies.map .ok ∧ (memory {}).answers rs = replies.map .ok ∧
        ∀ before e pre later, rs = before ++ .find e pre :: later →
          ∃ ks, replies[before.length]? = some (.keys ks) ∧
            ks.Pairwise (fun k l ↦ Text.Utf8.encode k.toList < Text.Utf8.encode l.toList) ∧
            ∀ key, key ∈ ks ↔
              key ∈ before.flatMap Request.written ∧ pre.toList <+: key.toList := by
  obtain ⟨replies, hdirectory, hmemory⟩ := (hd.follows _).answers hkeys fun _ hkey ↦ hkey
  refine ⟨replies, hdirectory, hmemory, ?_⟩
  rintro before e pre later rfl
  obtain ⟨ks, hfind, hsorted, hmem⟩ := find_after_memory before e pre
  refine ⟨ks, ?_, hsorted, hmem⟩
  have hreply : (replies.map Except.ok)[before.length]? =
      some (.ok (.keys ks) : Except StorageFault Reply) := by
    rw [← hmemory, answers_append, List.getElem?_append_right (by rw [length_answers]),
      length_answers, Nat.sub_self, answers, hfind, List.getElem?_cons_zero]
  simpa using hreply

/-- Listings from the last name to the first one. -/
def backwards : FileTree.Enumeration :=
  ⟨fun _ l ↦ l.reverse, fun _ _ ↦ List.reverse_perm _⟩

/-- Searches before, between and behind writes to nested directories. -/
def nested : List Request :=
  [.find backwards "", .contains "people/a.jsonl", .append "people/a.jsonl" [97],
    .put "places.jsonl" [98], .append "people/friends/b.jsonl" [99], .find .byName "people/fr",
    .append "people/a.jsonl" [100], .put "peoples.jsonl" [], .find backwards "people",
    .read "people/a.jsonl", .read "people/c.jsonl"]

/-- A root in a directory that does not exist either. -/
theorem answers_directory_nested :
    (directory ⟨{}, Path.ofString "data/graphs"⟩).answers nested =
      [.ok (.keys []), .ok (.flag false), .ok .done, .ok .done, .ok .done,
        .ok (.keys ["people/friends/b.jsonl"]), .ok .done, .ok .done,
        .ok (.keys ["people/a.jsonl", "people/friends/b.jsonl", "peoples.jsonl"]),
        .ok (.octets (some [97, 100])), .ok (.octets none)] := by
  have hclosed : FileTree.Closed {} := fun q name h ↦ by simp [FileTree.node?] at h
  have hfresh : Directory.Fresh ⟨{}, Path.ofString "data/graphs"⟩ :=
    Directory.fresh_of_missing hclosed (by decide +kernel) (by decide +kernel)
      (.inl (by decide +kernel))
  have hkeys : (Path.ofString "data/graphs").Admits (nested.flatMap Request.keys) := by
    decide +kernel
  obtain ⟨replies, hdirectory, hmemory, -⟩ := answers_directory hfresh hkeys
  rw [hdirectory, ← hmemory]
  rfl

end Storage

end TripleIndex
