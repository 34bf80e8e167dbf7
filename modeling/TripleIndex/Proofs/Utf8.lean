import TripleIndex.Text.Utf8
import Mathlib.Data.List.Induction
import Mathlib.Tactic.Common
import Mathlib.Tactic.SplitIfs

/-!
# UTF-8 there and back

Octets are text when the scan of them finds characters only and stops between two of them
(`Utf8.decode_eq_ok_iff`).  The octets of a text scan to its characters, and no others do
(`Utf8.decode_eq_ok_iff_eq_encode`).  Scanning goes on as it begins where no character is under way
(`Utf8.pieces_append`), so text can be appended to text octet by octet.  Ordering texts by their
characters is ordering them by their octets (`Utf8.encode_lt_encode`).
-/

namespace TripleIndex.Text.Utf8

namespace Scan

theorem start_append (ps qs : List Piece) (b : UInt8) :
    start (ps ++ qs) b = ⟨(start ps b).pieces ++ qs, (start ps b).pending⟩ := by
  rw [start, start]
  split
  · rfl
  · cases lead b <;> rfl

/-- Pieces that have been found do not matter to what is found behind them. -/
theorem step_append (ps qs : List Piece) (q : Option Pending) (b : UInt8) :
    step ⟨ps ++ qs, q⟩ b = ⟨(step ⟨ps, q⟩ b).pieces ++ qs, (step ⟨ps, q⟩ b).pending⟩ := by
  cases q with
  | none => exact start_append ps qs b
  | some p =>
    simp only [step]
    split
    · split <;> rfl
    · exact start_append (.invalid p.seen :: ps) qs b

theorem foldl_step_append (bs : List UInt8) (ps qs : List Piece) (q : Option Pending) :
    bs.foldl step ⟨ps ++ qs, q⟩ =
      ⟨(bs.foldl step ⟨ps, q⟩).pieces ++ qs, (bs.foldl step ⟨ps, q⟩).pending⟩ := by
  induction bs generalizing ps q with
  | nil => rfl
  | cons b bs ih => rw [List.foldl_cons, List.foldl_cons, step_append, ih]

/-! ## One character -/

/-- An octet that goes on with a character. -/
theorem step_more {ps : List Piece} {p : Pending} {n : Nat} (hn : n < 64)
    (hlow : p.low.toNat ≤ n + 0x80) (hhigh : n + 0x80 ≤ p.high.toNat) (hneed : 2 ≤ p.need) :
    step ⟨ps, some p⟩ (.ofNat (n + 0x80)) =
      ⟨ps, some ⟨p.seen + 1, p.value * 64 + n, p.need - 1, 0x80, 0xBF⟩⟩ := by
  have hb : (UInt8.ofNat (n + 0x80)).toNat = n + 0x80 := by
    rw [UInt8.toNat_ofNat']; omega
  have hin : p.low ≤ .ofNat (n + 0x80) ∧ .ofNat (n + 0x80) ≤ p.high := by
    rw [UInt8.le_iff_toNat_le, UInt8.le_iff_toNat_le, hb]
    exact ⟨hlow, hhigh⟩
  simp only [step, if_pos hin, hb, Nat.add_sub_cancel]
  rw [if_neg (by omega)]

/-- The octet that ends a character. -/
theorem step_last {ps : List Piece} {p : Pending} {n : Nat} (hn : n < 64)
    (hlow : p.low.toNat ≤ n + 0x80) (hhigh : n + 0x80 ≤ p.high.toNat) (hneed : p.need = 1) :
    step ⟨ps, some p⟩ (.ofNat (n + 0x80)) = ⟨.char (.ofNat (p.value * 64 + n)) :: ps, none⟩ := by
  have hb : (UInt8.ofNat (n + 0x80)).toNat = n + 0x80 := by
    rw [UInt8.toNat_ofNat']; omega
  have hin : p.low ≤ .ofNat (n + 0x80) ∧ .ofNat (n + 0x80) ≤ p.high := by
    rw [UInt8.le_iff_toNat_le, UInt8.le_iff_toNat_le, hb]
    exact ⟨hlow, hhigh⟩
  simp only [step, if_pos hin, hb, Nat.add_sub_cancel]
  rw [if_pos (by omega)]

theorem step_lead {ps : List Piece} {b : UInt8} {p : Pending} (h : lead b = some p)
    (hb : 0x80 ≤ b.toNat) : step ⟨ps, none⟩ b = ⟨ps, some p⟩ := by
  have hnot : ¬ b < 0x80 := by
    rw [UInt8.lt_iff_toNat_lt]
    exact Nat.not_lt.mpr hb
  simp only [step, start, if_neg hnot, h]

end Scan

theorem lead_two {v : Nat} (hlow : 0x80 ≤ v) (hhigh : v ≤ 0x7FF) :
    lead (.ofNat (v / 64 % 0x20 + 0xC0)) = some ⟨1, v / 64, 1, 0x80, 0xBF⟩ := by
  have hb : (UInt8.ofNat (v / 64 % 0x20 + 0xC0)).toNat = v / 64 + 0xC0 := by
    rw [UInt8.toNat_ofNat']; omega
  rw [lead, if_pos]
  · rw [hb, Nat.add_sub_cancel]
  · rw [UInt8.le_iff_toNat_le, UInt8.le_iff_toNat_le, hb]
    simp only [UInt8.reduceToNat]
    omega

/-- The second octet keeps out the overlong forms and the surrogates. -/
theorem lead_three {v : Nat} (hlow : 0x800 ≤ v) (hhigh : v ≤ 0xFFFF)
    (hvalid : v < 0xD800 ∨ 0xDFFF < v) :
    ∃ low high, lead (.ofNat (v / 4096 % 0x10 + 0xE0)) = some ⟨1, v / 4096, 2, low, high⟩ ∧
      low.toNat ≤ v / 64 % 0x40 + 0x80 ∧ v / 64 % 0x40 + 0x80 ≤ high.toNat := by
  have hb : (UInt8.ofNat (v / 4096 % 0x10 + 0xE0)).toNat = v / 4096 + 0xE0 := by
    rw [UInt8.toNat_ofNat']; omega
  simp only [lead, UInt8.le_iff_toNat_le, ← UInt8.toNat_inj, hb, UInt8.reduceToNat]
  rw [if_neg (by omega)]
  split
  · refine ⟨0xA0, 0xBF, ?_, ?_, ?_⟩
    · congr 2; omega
    · simp only [UInt8.reduceToNat]; omega
    · simp only [UInt8.reduceToNat]; omega
  · split
    · refine ⟨0x80, 0x9F, ?_, ?_, ?_⟩
      · congr 2; omega
      · simp only [UInt8.reduceToNat]; omega
      · simp only [UInt8.reduceToNat]; omega
    · rw [if_pos (by omega)]
      refine ⟨0x80, 0xBF, ?_, ?_, ?_⟩
      · rw [Nat.add_sub_cancel]
      · simp only [UInt8.reduceToNat]; omega
      · simp only [UInt8.reduceToNat]; omega

/-- The second octet keeps out the overlong forms and what lies above U+10FFFF. -/
theorem lead_four {v : Nat} (hlow : 0x10000 ≤ v) (hhigh : v < 0x110000) :
    ∃ low high, lead (.ofNat (v / 262144 % 0x08 + 0xF0)) = some ⟨1, v / 262144, 3, low, high⟩ ∧
      low.toNat ≤ v / 4096 % 0x40 + 0x80 ∧ v / 4096 % 0x40 + 0x80 ≤ high.toNat := by
  have hb : (UInt8.ofNat (v / 262144 % 0x08 + 0xF0)).toNat = v / 262144 + 0xF0 := by
    rw [UInt8.toNat_ofNat']; omega
  simp only [lead, UInt8.le_iff_toNat_le, ← UInt8.toNat_inj, hb, UInt8.reduceToNat]
  rw [if_neg (by omega), if_neg (by omega), if_neg (by omega), if_neg (by omega)]
  split
  · refine ⟨0x90, 0xBF, ?_, ?_, ?_⟩
    · congr 2; omega
    · simp only [UInt8.reduceToNat]; omega
    · simp only [UInt8.reduceToNat]; omega
  · split
    · refine ⟨0x80, 0xBF, ?_, ?_, ?_⟩
      · rw [Nat.add_sub_cancel]
      · simp only [UInt8.reduceToNat]; omega
      · simp only [UInt8.reduceToNat]; omega
    · rw [if_pos (by omega)]
      refine ⟨0x80, 0x8F, ?_, ?_, ?_⟩
      · congr 2; omega
      · simp only [UInt8.reduceToNat]; omega
      · simp only [UInt8.reduceToNat]; omega

/-- The octets of a character scan to the character. -/
theorem scan_char (ps : List Piece) (c : Char) :
    (String.utf8EncodeChar c).foldl Scan.step ⟨ps, none⟩ = ⟨.char c :: ps, none⟩ := by
  have hvalid : c.val.toNat < 0xD800 ∨ 0xDFFF < c.val.toNat ∧ c.val.toNat < 0x110000 := c.valid
  have hself : Char.ofNat c.val.toNat = c := Char.ofNat_toNat c
  rw [String.utf8EncodeChar]
  generalize c.val.toNat = v at hvalid hself ⊢
  split
  · rename_i h
    have hb : (UInt8.ofNat v).toNat = v := by
      rw [UInt8.toNat_ofNat']; omega
    have hascii : UInt8.ofNat v < 0x80 := by
      rw [UInt8.lt_iff_toNat_lt, hb]
      simp only [UInt8.reduceToNat]
      omega
    simp only [List.foldl_cons, List.foldl_nil, Scan.step, Scan.start, if_pos hascii, hb, hself]
  · split
    · rename_i h h'
      have hb : 0x80 ≤ (UInt8.ofNat (v / 64 % 0x20 + 0xC0)).toNat := by
        rw [UInt8.toNat_ofNat']; omega
      have hvalue : v / 64 * 64 + v % 0x40 = v := by omega
      simp only [List.foldl_cons, List.foldl_nil]
      rw [Scan.step_lead (lead_two (by omega) h') hb,
        Scan.step_last (by omega) (by simp) (by simp; omega) rfl, hvalue, hself]
    · split
      · rename_i h h' h''
        have hb : 0x80 ≤ (UInt8.ofNat (v / 4096 % 0x10 + 0xE0)).toNat := by
          rw [UInt8.toNat_ofNat']; omega
        have hvalue : (v / 4096 * 64 + v / 64 % 0x40) * 64 + v % 0x40 = v := by omega
        obtain ⟨low, high, hlead, hlow, hhigh⟩ := lead_three (by omega) h'' (by omega)
        simp only [List.foldl_cons, List.foldl_nil]
        rw [Scan.step_lead hlead hb, Scan.step_more (by omega) hlow hhigh (Nat.le_refl _),
          Scan.step_last (by omega) (by simp) (by simp; omega) rfl, hvalue, hself]
      · rename_i h h' h''
        have hb : 0x80 ≤ (UInt8.ofNat (v / 262144 % 0x08 + 0xF0)).toNat := by
          rw [UInt8.toNat_ofNat']; omega
        have hvalue :
            ((v / 262144 * 64 + v / 4096 % 0x40) * 64 + v / 64 % 0x40) * 64 + v % 0x40 = v := by
          omega
        obtain ⟨low, high, hlead, hlow, hhigh⟩ := lead_four (v := v) (by omega) (by omega)
        simp only [List.foldl_cons, List.foldl_nil]
        rw [Scan.step_lead hlead hb, Scan.step_more (by omega) hlow hhigh (by simp),
          Scan.step_more (by omega) (by simp) (by simp; omega) (Nat.le_refl _),
          Scan.step_last (by omega) (by simp) (by simp; omega) rfl, hvalue, hself]

/-! ## Texts -/

theorem scan_encode (ps : List Piece) (cs : List Char) :
    (encode cs).foldl Scan.step ⟨ps, none⟩ = ⟨(cs.map .char).reverse ++ ps, none⟩ := by
  induction cs generalizing ps with
  | nil => rfl
  | cons c cs ih =>
    rw [encode, List.flatMap_cons, List.foldl_append, scan_char, ← encode, ih]
    simp

theorem firstFault_map_char (index : Nat) (cs : List Char) :
    firstFault index (cs.map .char) = none := by
  induction cs generalizing index with
  | nil => rfl
  | cons c cs ih => exact ih _

/-- Without a fault all pieces are characters. -/
theorem eq_map_char_of_firstFault {index : Nat} {ps : List Piece} (h : firstFault index ps = none) :
    ps = (ps.filterMap Piece.char?).map .char := by
  induction ps generalizing index with
  | nil => rfl
  | cons p ps ih =>
    cases p with
    | char c => simpa [Piece.char?] using ih h
    | invalid n => cases h
    | incomplete n => cases h

/-- Octets are a text when all their pieces are its characters. -/
theorem decode_eq_ok_iff_pieces {bs : List UInt8} {cs : List Char} :
    decode bs = .ok cs ↔ pieces bs = cs.map .char := by
  simp only [decode]
  constructor
  · intro h
    split at h
    · cases h
    · rename_i hfault
      rw [← Except.ok.inj h]
      exact eq_map_char_of_firstFault hfault
  · intro h
    simp only [h, firstFault_map_char]
    simp [List.filterMap_map, Function.comp_def, Piece.char?]

/-- Octets are a text when scanning them finds its characters and nothing is left over. -/
theorem decode_eq_ok_iff {bs : List UInt8} {cs : List Char} :
    decode bs = .ok cs ↔ bs.foldl Scan.step .empty = ⟨(cs.map .char).reverse, none⟩ := by
  rw [decode_eq_ok_iff_pieces, pieces]
  generalize bs.foldl Scan.step .empty = scan
  obtain ⟨ps, pending⟩ := scan
  cases pending with
  | none => simp [Scan.finish, List.reverse_eq_iff]
  | some p =>
    constructor
    · intro h
      have hmem : Piece.incomplete p.seen ∈ cs.map Piece.char := by
        rw [← h]
        simp [Scan.finish]
      obtain ⟨c, -, hc⟩ := List.mem_map.mp hmem
      cases hc
    · intro h
      cases h

@[simp] theorem decode_encode (cs : List Char) : decode (encode cs) = .ok cs := by
  rw [decode_eq_ok_iff, Scan.empty, scan_encode, List.append_nil]

/-- The symbols of a text are its characters. -/
theorem symbols_encode (cs : List Char) : symbols (encode cs) = cs.map some := by
  rw [symbols, pieces, Scan.empty, scan_encode, Scan.finish, List.append_nil, List.reverse_reverse,
    List.map_map]
  rfl

/-- Where no sequence is under way, the scan begins anew. -/
theorem pieces_append {as : List UInt8} (h : (as.foldl Scan.step .empty).pending = none)
    (bs : List UInt8) : pieces (as ++ bs) = pieces as ++ pieces bs := by
  obtain ⟨ps, hscan⟩ : ∃ ps, as.foldl Scan.step .empty = ⟨ps, none⟩ := ⟨_, by rw [← h]⟩
  have hframe := Scan.foldl_step_append bs [] ps none
  rw [pieces, List.foldl_append, hscan, ← List.nil_append ps, hframe, pieces, pieces, hscan,
    Scan.empty]
  cases hpending : (bs.foldl Scan.step ⟨[], none⟩).pending <;> simp [Scan.finish, hpending]

/-- Where the scan begins anew, octets are text exactly if both parts are. -/
theorem decode_append_eq_ok_iff {as bs : List UInt8}
    (h : (as.foldl Scan.step .empty).pending = none) {text : List Char} :
    decode (as ++ bs) = .ok text ↔
      ∃ cs ds, decode as = .ok cs ∧ decode bs = .ok ds ∧ text = cs ++ ds := by
  simp only [decode_eq_ok_iff_pieces, pieces_append h]
  constructor
  · intro htext
    obtain ⟨cs, ds, rfl, hcs, hds⟩ := List.map_eq_append_iff.mp htext.symm
    exact ⟨cs, ds, hcs.symm, hds.symm, rfl⟩
  · rintro ⟨cs, ds, hcs, hds, rfl⟩
    rw [hcs, hds, List.map_append]

/-- Text behind text is text. -/
theorem decode_append {as bs : List UInt8} {cs ds : List Char} (ha : decode as = .ok cs)
    (hb : decode bs = .ok ds) : decode (as ++ bs) = .ok (cs ++ ds) := by
  have hscan : (as.foldl Scan.step .empty).pending = none := by rw [decode_eq_ok_iff.mp ha]
  exact (decode_append_eq_ok_iff hscan).mpr ⟨cs, ds, ha, hb, rfl⟩

/-- Only an ASCII character ends with an octet below the others, and it is this octet. -/
theorem toNat_of_getLast? {c : Char} {b : UInt8} (h : (String.utf8EncodeChar c).getLast? = some b)
    (hb : b.toNat < 0x80) : c.val.toNat = b.toNat := by
  rw [String.utf8EncodeChar] at h
  generalize c.val.toNat = v at h ⊢
  have hlast : v % 0x40 + 0x80 < 256 := by omega
  split_ifs at h with hone htwo hthree
  all_goals
    simp only [List.getLast?_cons_cons, List.getLast?_singleton, Option.some.injEq] at h
    rw [← h, UInt8.toNat_ofNat'] at hb ⊢
    omega

theorem getLast?_utf8EncodeChar_feed_iff {c : Char} :
    (String.utf8EncodeChar c).getLast? = some 10 ↔ c = '\n' := by
  constructor
  · intro h
    have hc : c.val.toNat = '\n'.val.toNat := toNat_of_getLast? h (by decide)
    exact Char.ext (UInt32.toNat_inj.mp hc)
  · rintro rfl
    decide

/-! ## No other octets are text -/

theorem toNat_val_ofNat {v : Nat} (h : v < 0xD800 ∨ 0xDFFF < v ∧ v < 0x110000) :
    (Char.ofNat v).val.toNat = v := by
  have hvalid : v.isValidChar := h
  rw [Char.ofNat, dif_pos hvalid]
  rfl

theorem ofNat_eq_of_toNat {b : UInt8} {n : Nat} (h : b.toNat = n) : UInt8.ofNat n = b := by
  rw [← h, UInt8.ofNat_toNat]

variable {v : Nat} {a b c d : UInt8}

theorem utf8EncodeChar_two (hv : v = (a.toNat - 0xC0) * 64 + (b.toNat - 0x80))
    (ha : 0xC2 ≤ a.toNat ∧ a.toNat ≤ 0xDF) (hb : 0x80 ≤ b.toNat ∧ b.toNat ≤ 0xBF) :
    String.utf8EncodeChar (.ofNat v) = [a, b] := by
  rw [String.utf8EncodeChar, toNat_val_ofNat (by omega), if_neg (by omega), if_pos (by omega),
    ofNat_eq_of_toNat (b := a) (by omega), ofNat_eq_of_toNat (b := b) (by omega)]

theorem utf8EncodeChar_three
    (hv : v = ((a.toNat - 0xE0) * 64 + (b.toNat - 0x80)) * 64 + (c.toNat - 0x80))
    (ha : 0xE0 ≤ a.toNat ∧ a.toNat ≤ 0xEF) (hb : 0x80 ≤ b.toNat ∧ b.toNat ≤ 0xBF)
    (hc : 0x80 ≤ c.toNat ∧ c.toNat ≤ 0xBF) (hlong : 0x800 ≤ v) (hvalid : v < 0xD800 ∨ 0xDFFF < v) :
    String.utf8EncodeChar (.ofNat v) = [a, b, c] := by
  rw [String.utf8EncodeChar, toNat_val_ofNat (by omega), if_neg (by omega), if_neg (by omega),
    if_pos (by omega), ofNat_eq_of_toNat (b := a) (by omega), ofNat_eq_of_toNat (b := b) (by omega),
    ofNat_eq_of_toNat (b := c) (by omega)]

theorem utf8EncodeChar_four
    (hv : v = (((a.toNat - 0xF0) * 64 + (b.toNat - 0x80)) * 64 + (c.toNat - 0x80)) * 64 +
      (d.toNat - 0x80))
    (ha : 0xF0 ≤ a.toNat ∧ a.toNat ≤ 0xF4) (hb : 0x80 ≤ b.toNat ∧ b.toNat ≤ 0xBF)
    (hc : 0x80 ≤ c.toNat ∧ c.toNat ≤ 0xBF) (hd : 0x80 ≤ d.toNat ∧ d.toNat ≤ 0xBF)
    (hlong : 0x10000 ≤ v) (hvalid : v < 0x110000) :
    String.utf8EncodeChar (.ofNat v) = [a, b, c, d] := by
  rw [String.utf8EncodeChar, toNat_val_ofNat (by omega), if_neg (by omega), if_neg (by omega),
    if_neg (by omega), ofNat_eq_of_toNat (b := a) (by omega), ofNat_eq_of_toNat (b := b) (by omega),
    ofNat_eq_of_toNat (b := c) (by omega), ofNat_eq_of_toNat (b := d) (by omega)]

/-- Whatever octets within the bounds come next, they make a character together with those that have
been seen. -/
def Completes : Nat → Nat → UInt8 → UInt8 → List UInt8 → Prop
  | 0, value, low, high, seen => ∀ b, low ≤ b → b ≤ high →
      String.utf8EncodeChar (.ofNat (value * 64 + (b.toNat - 0x80))) = seen ++ [b]
  | more + 1, value, low, high, seen => ∀ b, low ≤ b → b ≤ high →
      Completes more (value * 64 + (b.toNat - 0x80)) 0x80 0xBF (seen ++ [b])

theorem completes_lead {p : Pending} (h : lead a = some p) :
    Completes (p.need - 1) p.value p.low p.high [a] := by
  unfold lead at h
  simp only [UInt8.le_iff_toNat_le, ← UInt8.toNat_inj, UInt8.reduceToNat] at h
  -- One case for every row of the table of lead octets.
  split_ifs at h
  all_goals
    cases h
    simp only [Completes, Nat.reduceSub, UInt8.le_iff_toNat_le, UInt8.reduceToNat]
  · intro b hlow hhigh
    exact utf8EncodeChar_two rfl (by omega) (by omega)
  · intro b hlow hhigh c hlow' hhigh'
    exact utf8EncodeChar_three (by omega) (by omega) (by omega) (by omega) (by omega) (by omega)
  · intro b hlow hhigh c hlow' hhigh'
    exact utf8EncodeChar_three (by omega) (by omega) (by omega) (by omega) (by omega) (by omega)
  · intro b hlow hhigh c hlow' hhigh'
    exact utf8EncodeChar_three rfl (by omega) (by omega) (by omega) (by omega) (by omega)
  · intro b hlow hhigh c hlow' hhigh' d hlow'' hhigh''
    exact utf8EncodeChar_four (by omega) (by omega) (by omega) (by omega) (by omega) (by omega)
      (by omega)
  · intro b hlow hhigh c hlow' hhigh' d hlow'' hhigh''
    exact utf8EncodeChar_four rfl (by omega) (by omega) (by omega) (by omega) (by omega) (by omega)
  · intro b hlow hhigh c hlow' hhigh' d hlow'' hhigh''
    exact utf8EncodeChar_four (by omega) (by omega) (by omega) (by omega) (by omega) (by omega)
      (by omega)

namespace Scan

/-- A scan that has found characters only has seen their octets, and some that go on to another. -/
def Covers (s : Scan) (bs : List UInt8) : Prop :=
  ∀ cs : List Char, s.pieces = (cs.map .char).reverse → ∃ seen, bs = encode cs ++ seen ∧
    match s.pending with
    | none => seen = []
    | some p => Completes (p.need - 1) p.value p.low p.high seen

theorem eq_concat_of_cons_eq {p : Piece} {ps : List Piece} {cs : List Char}
    (h : p :: ps = (cs.map .char).reverse) :
    ∃ ds c, cs = ds ++ [c] ∧ p = .char c ∧ ps = (ds.map .char).reverse := by
  cases cs using List.reverseRecOn with
  | nil => cases h
  | append_singleton ds c =>
    rw [List.map_append, List.reverse_append] at h
    obtain ⟨hp, hps⟩ := List.cons_eq_cons.mp h
    exact ⟨ds, c, rfl, hp, hps⟩

theorem ne_reverse_map_of_cons {p : Piece} {ps : List Piece} {cs : List Char}
    (hp : ∀ c, p ≠ .char c) : p :: ps ≠ (cs.map .char).reverse := by
  intro h
  obtain ⟨-, c, -, hc, -⟩ := eq_concat_of_cons_eq h
  exact hp c hc

/-- An octet that begins a piece behind whole characters. -/
theorem covers_start {ps : List Piece} {bs : List UInt8}
    (h : ∀ cs : List Char, ps = (cs.map .char).reverse → bs = encode cs) (b : UInt8) :
    (start ps b).Covers (bs ++ [b]) := by
  intro cs hcs
  rw [start] at hcs ⊢
  by_cases hascii : b < 0x80
  · rw [if_pos hascii] at hcs ⊢
    obtain ⟨ds, c, rfl, hc, hds⟩ := eq_concat_of_cons_eq hcs
    obtain rfl := Piece.char.inj hc
    have hb : b.toNat < 0x80 := UInt8.lt_iff_toNat_lt.mp hascii
    refine ⟨[], ?_, rfl⟩
    rw [h ds hds, encode_append, List.append_nil, encode, encode, List.flatMap_singleton,
      String.utf8EncodeChar, toNat_val_ofNat (by omega), if_pos (by omega), UInt8.ofNat_toNat]
  · rw [if_neg hascii] at hcs ⊢
    cases hlead : lead b with
    | none =>
      rw [hlead] at hcs
      exact (ne_reverse_map_of_cons (by simp) hcs).elim
    | some p =>
      rw [hlead] at hcs
      exact ⟨[b], by rw [h cs hcs], completes_lead hlead⟩

theorem Covers.step {s : Scan} {bs : List UInt8} (h : s.Covers bs) (b : UInt8) :
    (s.step b).Covers (bs ++ [b]) := by
  obtain ⟨ps, pending⟩ := s
  cases pending with
  | none =>
    refine covers_start (fun cs hcs ↦ ?_) b
    obtain ⟨seen, hbs, rfl⟩ := h cs hcs
    rwa [List.append_nil] at hbs
  | some p =>
    rw [Scan.step]
    dsimp only
    by_cases hin : p.low ≤ b ∧ b ≤ p.high
    · rw [if_pos hin]
      by_cases hneed : p.need ≤ 1
      · rw [if_pos hneed]
        intro cs hcs
        obtain ⟨ds, c, rfl, hc, hds⟩ := eq_concat_of_cons_eq hcs
        obtain rfl := Piece.char.inj hc
        obtain ⟨seen, rfl, hcompletes⟩ := h ds hds
        dsimp only at hcompletes
        rw [Nat.sub_eq_zero_of_le hneed] at hcompletes
        refine ⟨[], ?_, rfl⟩
        rw [encode_append, List.append_nil, List.append_assoc, ← hcompletes b hin.1 hin.2]
        simp [encode]
      · rw [if_neg hneed]
        intro cs hcs
        obtain ⟨seen, rfl, hcompletes⟩ := h cs hcs
        obtain ⟨more, hmore⟩ : ∃ more, p.need - 1 = more + 1 := ⟨p.need - 2, by omega⟩
        dsimp only at hcompletes
        rw [hmore] at hcompletes
        refine ⟨seen ++ [b], by rw [List.append_assoc], ?_⟩
        dsimp only
        rw [hmore, Nat.add_sub_cancel]
        exact hcompletes b hin.1 hin.2
    · rw [if_neg hin]
      -- A broken sequence is no character, and what follows does not mend it.
      exact covers_start (fun cs hcs ↦ (ne_reverse_map_of_cons (by simp) hcs).elim) b

theorem covers_scan (bs : List UInt8) : (bs.foldl Scan.step .empty).Covers bs := by
  induction bs using List.reverseRecOn with
  | nil =>
    intro cs hcs
    cases cs with
    | nil => exact ⟨[], rfl, rfl⟩
    | cons c cs => simp [empty] at hcs
  | append_singleton bs b ih =>
    rw [List.foldl_append]
    exact ih.step b

end Scan

/-- Octets are text exactly if they are the octets of that text. -/
theorem decode_eq_ok_iff_eq_encode {bs : List UInt8} {cs : List Char} :
    decode bs = .ok cs ↔ bs = encode cs := by
  constructor
  · intro h
    rw [decode_eq_ok_iff] at h
    obtain ⟨seen, hbs, hpending⟩ := Scan.covers_scan bs cs (by rw [h])
    rw [h] at hpending
    obtain rfl : seen = [] := hpending
    rwa [List.append_nil] at hbs
  · rintro rfl
    exact decode_encode cs

/-! ## Order -/

theorem toNat_ofNat_add {n k m : Nat} (hk : 0 < k) (hm : k + m ≤ 256) :
    (UInt8.ofNat (n % k + m)).toNat = n % k + m := by
  have := Nat.mod_lt n hk
  rw [UInt8.toNat_ofNat']
  omega

/-- The octets of a smaller character are smaller where they first differ. -/
theorem utf8EncodeChar_append_lt {c d : Char} (h : c < d) (as bs : List UInt8) :
    String.utf8EncodeChar c ++ as < String.utf8EncodeChar d ++ bs := by
  have hlt : c.val.toNat < d.val.toNat := h
  have hd : d.val.toNat < 0x110000 := by
    have := d.valid
    simp only [UInt32.isValidChar, Nat.isValidChar] at this
    omega
  rw [String.utf8EncodeChar, String.utf8EncodeChar]
  generalize c.val.toNat = v at hlt ⊢
  generalize d.val.toNat = w at hlt hd ⊢
  have hlast : v / 64 < w / 64 ∨ v / 64 = w / 64 ∧ v % 64 < w % 64 := by omega
  have hthird (h : v / 64 < w / 64) :
      v / 4096 < w / 4096 ∨ v / 4096 = w / 4096 ∧ v / 64 % 64 < w / 64 % 64 := by omega
  have hsecond (h : v / 4096 < w / 4096) :
      v / 262144 < w / 262144 ∨ v / 262144 = w / 262144 ∧ v / 4096 % 64 < w / 4096 % 64 := by omega
  -- Four octets are compared digit by digit; shorter forms differ in length or have few digits.
  split_ifs
  all_goals
    simp only [List.cons_append, List.nil_append, List.cons_lt_cons_iff, UInt8.lt_iff_toNat_lt,
      ← UInt8.toNat_inj, UInt8.toNat_ofNat',
      toNat_ofNat_add (show 0 < 0x40 by decide) (show 0x40 + 0x80 ≤ 256 by decide),
      toNat_ofNat_add (show 0 < 0x20 by decide) (show 0x20 + 0xC0 ≤ 256 by decide),
      toNat_ofNat_add (show 0 < 0x10 by decide) (show 0x10 + 0xE0 ≤ 256 by decide),
      toNat_ofNat_add (show 0 < 0x08 by decide) (show 0x08 + 0xF0 ≤ 256 by decide)]
    rcases hlast with h | ⟨heq, h⟩
    · rcases hthird h with h | ⟨heq, h⟩
      · rcases hsecond h with h | ⟨heq, h⟩ <;> omega
      · omega
    · omega

/-- Texts are ordered as their octets are. -/
theorem encode_lt_encode {cs ds : List Char} (h : cs < ds) : encode cs < encode ds := by
  induction cs generalizing ds with
  | nil =>
    cases ds with
    | nil => exact (List.lt_irrefl _ h).elim
    | cons d ds =>
      rw [encode, encode, List.flatMap_nil, List.flatMap_cons]
      cases hd : String.utf8EncodeChar d with
      | nil => exact (String.utf8EncodeChar_ne_nil hd).elim
      | cons b bs => exact List.nil_lt_cons _ _
  | cons c cs ih =>
    cases ds with
    | nil => cases h
    | cons d ds =>
      rw [encode, encode, List.flatMap_cons, List.flatMap_cons]
      rcases List.cons_lt_cons_iff.mp h with hhead | ⟨rfl, htail⟩
      · exact utf8EncodeChar_append_lt hhead _ _
      · exact List.append_left_lt (ih htail)

end TripleIndex.Text.Utf8
