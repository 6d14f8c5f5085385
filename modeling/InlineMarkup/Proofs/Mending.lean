import InlineMarkup.Proofs.Decoding
import Mathlib.Order.Bounds.Basic

/-! Mending: of bytes that are not UTF-8 each maximal part that no scalar value can start with becomes one
U+FFFD, and all else stays what it is. -/

namespace InlineMarkup.Utf8

variable {bytes : List UInt8} {a x y : UInt8} {t : List UInt8} {c : Char} {v n len : Nat}
  {least greatest : UInt8} {text mended : List Char}

/-- Whether the first `n` bytes are one byte, or the beginning of what encodes a scalar value. -/
structure IsSubpart (bytes : List UInt8) (n : Nat) : Prop where
  pos : 1 ≤ n
  le_length : n ≤ bytes.length
  encodes : n = 1 ∨ ∃ c : Char, bytes.take n <+: String.utf8EncodeChar c

/-- Whether a text is what bytes say, one U+FFFD standing for each maximal ill-formed subpart. -/
inductive Mends : List UInt8 → List Char → Prop
  | nil : Mends [] []
  | scalar (c : Char) {rest : List UInt8} {text : List Char} (h : Mends rest text) :
      Mends (String.utf8EncodeChar c ++ rest) (c :: text)
  | replaced {bytes : List UInt8} {n : Nat} {text : List Char}
      (hstuck : ∀ c : Char, ¬String.utf8EncodeChar c <+: bytes)
      (hmax : IsGreatest {n | IsSubpart bytes n} n) (h : Mends (bytes.drop n) text) :
      Mends bytes ('\ufffd' :: text)

/-! ### The bytes of a scalar value -/

theorem secondByte?_eq (lead : UInt8) : secondByte? lead =
    if lead.toNat < 194 then none
    else if lead.toNat < 224 then some (0x80, 0xBF, 2)
    else if lead.toNat = 224 then some (0xA0, 0xBF, 3)
    else if lead.toNat = 237 then some (0x80, 0x9F, 3)
    else if lead.toNat < 240 then some (0x80, 0xBF, 3)
    else if lead.toNat = 240 then some (0x90, 0xBF, 4)
    else if lead.toNat < 244 then some (0x80, 0xBF, 4)
    else if lead.toNat = 244 then some (0x80, 0x8F, 4)
    else none := by
  simp only [secondByte?, UInt8.lt_iff_toNat_lt, ← UInt8.toNat_inj]
  rfl

/-- The numbers of a form of two bytes or more. -/
inductive Form (v : Nat) (a x : UInt8) : List UInt8 → Prop
  | two (hmin : 128 ≤ v) (hmax : v < 2048) (ha : a.toNat = v / 64 + 192) (hx : x.toNat = v % 64 + 128) :
      Form v a x []
  | three {y : UInt8} (hmin : 2048 ≤ v) (hmax : v < 65536) (ha : a.toNat = v / 4096 + 224)
      (hx : x.toNat = v / 64 % 64 + 128) (hy : y.toNat = v % 64 + 128) : Form v a x [y]
  | four {y z : UInt8} (hmin : 65536 ≤ v) (ha : a.toNat = v / 262144 + 240)
      (hx : x.toNat = v / 4096 % 64 + 128) (hy : y.toNat = v / 64 % 64 + 128)
      (hz : z.toNat = v % 64 + 128) : Form v a x [y, z]

theorem form_of_utf8EncodeChar (h : String.utf8EncodeChar c = a :: x :: t) : Form c.val.toNat a x t := by
  have hvalid : c.val.toNat < 55296 ∨ 57343 < c.val.toNat ∧ c.val.toNat < 1114112 := c.valid
  unfold String.utf8EncodeChar at h
  generalize c.val.toNat = v at h hvalid
  dsimp only at h
  split at h
  · cases h
  split at h
  · obtain ⟨rfl, rfl, rfl⟩ : _ ∧ _ ∧ _ := by simpa only [List.cons.injEq] using h
    refine .two (by omega) (by omega) ?_ ?_ <;> rw [UInt8.toNat_ofNat'] <;> omega
  split at h
  · obtain ⟨rfl, rfl, rfl⟩ : _ ∧ _ ∧ _ := by simpa only [List.cons.injEq] using h
    refine .three (by omega) (by omega) ?_ ?_ ?_ <;> rw [UInt8.toNat_ofNat'] <;> omega
  · obtain ⟨rfl, rfl, rfl⟩ : _ ∧ _ ∧ _ := by simpa only [List.cons.injEq] using h
    refine .four (by omega) ?_ ?_ ?_ ?_ <;> rw [UInt8.toNat_ofNat'] <;> omega

theorem Form.exists_char (h : Form v a x t) (hvalid : v.isValidChar) :
    ∃ c : Char, String.utf8EncodeChar c = a :: x :: t := by
  refine ⟨Char.ofNat v, ?_⟩
  have hv : (Char.ofNat v).val.toNat = v := by
    rw [Char.ofNat, dif_pos hvalid]
    rfl
  have hbyte {b : UInt8} {k : Nat} (hb : b.toNat = k) : UInt8.ofNat k = b := by
    rw [← hb, UInt8.ofNat_toNat]
  unfold String.utf8EncodeChar
  rw [hv]
  dsimp only
  cases h with
  | two hmin hmax ha hx =>
    rw [if_neg (by omega), if_pos (by omega), hbyte hx, hbyte (ha.trans (by omega))]
  | three hmin hmax ha hx hy =>
    rw [if_neg (by omega), if_neg (by omega), if_pos (by omega), hbyte hx, hbyte hy,
      hbyte (ha.trans (by omega))]
  | four hmin ha hx hy hz =>
    rw [if_neg (by omega), if_neg (by omega), if_neg (by omega), hbyte hx, hbyte hy, hbyte hz,
      hbyte (ha.trans (by omega))]

/-- How long a form is and what its second byte may be, by its first byte. -/
theorem of_secondByte?_eq_some (h : secondByte? a = some (least, greatest, len)) :
    (len = 2 ∧ 194 ≤ a.toNat ∧ a.toNat < 224 ∧ least.toNat = 128 ∧ greatest.toNat = 191) ∨
    (len = 3 ∧ 224 ≤ a.toNat ∧ a.toNat < 240 ∧
      (a.toNat = 224 ∧ least.toNat = 160 ∨ a.toNat ≠ 224 ∧ least.toNat = 128) ∧
      (a.toNat = 237 ∧ greatest.toNat = 159 ∨ a.toNat ≠ 237 ∧ greatest.toNat = 191)) ∨
    len = 4 ∧ 240 ≤ a.toNat ∧ a.toNat < 245 ∧
      (a.toNat = 240 ∧ least.toNat = 144 ∨ a.toNat ≠ 240 ∧ least.toNat = 128) ∧
      (a.toNat = 244 ∧ greatest.toNat = 143 ∨ a.toNat ≠ 244 ∧ greatest.toNat = 191) := by
  rw [secondByte?_eq] at h
  repeat' split at h
  all_goals cases h
  all_goals simp
  all_goals omega

theorem exists_secondByte? (hmin : 194 ≤ a.toNat) (hmax : a.toNat < 245) :
    ∃ least greatest len, secondByte? a = some (least, greatest, len) := by
  rw [secondByte?_eq, if_neg (by omega)]
  repeat' split
  all_goals first
    | exact ⟨_, _, _, rfl⟩
    | omega

/-- The second byte of a form is one that may follow the first, and the others go on. -/
theorem Form.exists_secondByte? (h : Form v a x t) (hvalid : v.isValidChar) :
    ∃ least greatest, secondByte? a = some (least, greatest, t.length + 2) ∧
      least.toNat ≤ x.toNat ∧ x.toNat ≤ greatest.toNat ∧ ∀ d ∈ t, 128 ≤ d.toNat ∧ d.toNat ≤ 191 := by
  have hvalid : v < 55296 ∨ 57343 < v ∧ v < 1114112 := hvalid
  obtain ⟨least, greatest, len, hsecond⟩ :=
    Utf8.exists_secondByte? (a := a) (by cases h <;> omega) (by cases h <;> omega)
  have hbounds := of_secondByte?_eq_some hsecond
  cases h with
  | two hmin hmax ha hx =>
    obtain rfl : len = 2 := by omega
    exact ⟨_, _, hsecond, by omega, by omega, by simp⟩
  | three hmin hmax ha hx hy =>
    obtain rfl : len = 3 := by omega
    exact ⟨_, _, hsecond, by omega, by omega, by simp; omega⟩
  | four hmin ha hx hy hz =>
    obtain rfl : len = 4 := by omega
    exact ⟨_, _, hsecond, by omega, by omega, by simp; omega⟩

/-- A first byte and a second one that may follow it begin the form of a scalar value, of four bytes with
any third byte that goes on. -/
theorem exists_char_of_secondByte? (h : secondByte? a = some (least, greatest, len))
    (hleast : least.toNat ≤ x.toNat) (hgreatest : x.toNat ≤ greatest.toNat) (hmin : 128 ≤ y.toNat)
    (hmax : y.toNat ≤ 191) :
    ∃ c t, String.utf8EncodeChar c = a :: x :: t ∧ (len = 4 → t.head? = some y) := by
  have hlast : (0x80 : UInt8).toNat = 128 := rfl
  obtain ⟨rfl, hlead⟩ | ⟨rfl, hlead⟩ | ⟨rfl, hlead⟩ := of_secondByte?_eq_some h
  · have hform : Form ((a.toNat - 192) * 64 + (x.toNat - 128)) a x [] :=
      .two (by omega) (by omega) (by omega) (by omega)
    obtain ⟨c, hc⟩ := hform.exists_char (by unfold Nat.isValidChar; omega)
    exact ⟨c, _, hc, nofun⟩
  · have hform : Form ((a.toNat - 224) * 4096 + (x.toNat - 128) * 64) a x [0x80] :=
      .three (by omega) (by omega) (by omega) (by omega) (by omega)
    obtain ⟨c, hc⟩ := hform.exists_char (by unfold Nat.isValidChar; omega)
    exact ⟨c, _, hc, nofun⟩
  · have hform : Form ((a.toNat - 240) * 262144 + (x.toNat - 128) * 4096 + (y.toNat - 128) * 64) a x
        [y, 0x80] := .four (by omega) (by omega) (by omega) (by omega) (by omega)
    obtain ⟨c, hc⟩ := hform.exists_char (by unfold Nat.isValidChar; omega)
    exact ⟨c, _, hc, fun _ => rfl⟩

/-! ### Maximal subparts -/

/-- What begins the form of a scalar value, where no whole form stands, is shorter than the form. -/
theorem length_lt_of_stuck (hstuck : ¬String.utf8EncodeChar c <+: bytes) (hle : n ≤ bytes.length)
    (hpart : bytes.take n <+: String.utf8EncodeChar c) : n < (String.utf8EncodeChar c).length := by
  refine Nat.lt_of_le_of_ne ?_ fun heq => hstuck ?_
  · rw [← List.length_take_of_le hle]
    exact hpart.length_le
  · have hwhole := hpart.eq_of_length (by rw [List.length_take_of_le hle, heq])
    exact hwhole ▸ List.take_prefix n bytes

/-- Where a subpart has two bytes or more, the second one may follow the first, and there is a third one
only in a form of four bytes. -/
theorem IsSubpart.exists_secondByte? (h : IsSubpart bytes n) (hn : n ≠ 1)
    (hstuck : ∀ c : Char, ¬String.utf8EncodeChar c <+: bytes) :
    ∃ a x t least greatest len, bytes = a :: x :: t ∧ secondByte? a = some (least, greatest, len) ∧
      least.toNat ≤ x.toNat ∧ x.toNat ≤ greatest.toNat ∧
      (n = 2 ∨ n = 3 ∧ len = 4 ∧ ∃ y ∈ t.head?, 128 ≤ y.toNat ∧ y.toNat ≤ 191) := by
  obtain ⟨c, hpart⟩ := h.encodes.resolve_left hn
  have hpos := h.pos
  have hle := h.le_length
  have hlt := length_lt_of_stuck (hstuck c) hle hpart
  obtain ⟨k, rfl⟩ : ∃ k, n = k + 2 := ⟨n - 2, by omega⟩
  obtain ⟨a, x, t, rfl⟩ : ∃ a x t, bytes = a :: x :: t := by
    match bytes, hle with
    | a :: x :: t, _ => exact ⟨a, x, t, rfl⟩
  obtain ⟨u, hc⟩ : ∃ u, String.utf8EncodeChar c = a :: x :: (t.take k ++ u) := by
    obtain ⟨u, hu⟩ := hpart
    exact ⟨u, hu.symm⟩
  obtain ⟨least, greatest, hsecond, hleast, hgreatest, hrest⟩ :=
    (form_of_utf8EncodeChar hc).exists_secondByte? c.valid
  refine ⟨a, x, t, least, greatest, _, rfl, hsecond, hleast, hgreatest, ?_⟩
  have hlen := of_secondByte?_eq_some hsecond
  rw [hc] at hlt
  simp only [List.length_cons, List.length_append, List.length_take] at hlt hlen hle ⊢
  cases k with
  | zero => exact .inl rfl
  | succ k =>
    cases t with
    | nil => simp at hle
    | cons y t =>
      simp only [List.length_cons] at hlt hlen hle ⊢
      exact .inr ⟨by omega, by omega, y, rfl, hrest y (by simp)⟩

theorem byteBetween_iff (bytes : ByteArray) (i k : Nat) (least greatest : UInt8) :
    byteBetween bytes (i + k) least greatest = true ↔
      ∃ y ∈ (bytes.data.toList.drop i)[k]?, least.toNat ≤ y.toNat ∧ y.toNat ≤ greatest.toNat := by
  unfold byteBetween
  split
  · rename_i h
    have hget : (bytes.data.toList.drop i)[k]? = some bytes[i + k] := by
      rw [List.getElem?_drop, Array.getElem?_toList]
      exact getElem?_pos bytes.data (i + k) h
    simp [hget, UInt8.le_iff_toNat_le]
  · rename_i h
    have hget : (bytes.data.toList.drop i)[k]? = none := by
      rw [List.getElem?_drop, Array.getElem?_toList]
      exact getElem?_neg bytes.data (i + k) h
    simp [hget]

theorem getElem?_eq_head?_drop (bytes : ByteArray) (i : Nat) :
    bytes[i]? = (bytes.data.toList.drop i).head? := by
  rw [List.head?_drop, Array.getElem?_toList]
  by_cases h : i < bytes.size
  · exact (getElem?_pos bytes i h).trans (getElem?_pos bytes.data i h).symm
  · exact (getElem?_neg bytes i h).trans (getElem?_neg bytes.data i h).symm

/-- The maximal subpart is a subpart. -/
theorem isSubpart_maximalSubpart {bytes : ByteArray} {i : Nat} (hi : i < bytes.size) :
    IsSubpart (bytes.data.toList.drop i) (maximalSubpart bytes i) := by
  have hsome : bytes.data.toList.drop i ≠ [] := by simpa using hi
  have hsecond := byteBetween_iff bytes i 1
  have hthird := byteBetween_iff bytes i 2 0x80 0xBF
  unfold maximalSubpart
  rw [getElem?_eq_head?_drop]
  generalize bytes.data.toList.drop i = rest at *
  obtain ⟨a, rest, rfl⟩ := List.exists_cons_of_ne_nil hsome
  have hone : IsSubpart (a :: rest) 1 := ⟨Nat.le_refl 1, by simp, .inl rfl⟩
  split
  · exact hone
  rename_i least greatest len hlead
  replace hlead : secondByte? a = some (least, greatest, len) := hlead
  split
  · exact hone
  rename_i hx
  rw [Bool.not_eq_true', Bool.not_eq_false, hsecond] at hx
  obtain ⟨x, hx, hleast, hgreatest⟩ := hx
  obtain ⟨t, rfl⟩ : ∃ t, rest = x :: t := by
    cases rest <;> simp_all
  split
  · rename_i hy
    rw [Bool.and_eq_true, decide_eq_true_eq, hthird] at hy
    obtain ⟨hlen, y, hy, hmin, hmax⟩ := hy
    obtain ⟨t, rfl⟩ : ∃ u, t = y :: u := by
      cases t <;> simp_all
    obtain ⟨c, u, hc, hhead⟩ := exists_char_of_secondByte? hlead hleast hgreatest hmin hmax
    obtain ⟨u, rfl⟩ := List.head?_eq_some_iff.1 (hhead hlen)
    exact ⟨by decide, by simp, .inr ⟨c, u, hc.symm⟩⟩
  · obtain ⟨c, u, hc, -⟩ :=
      exists_char_of_secondByte? hlead hleast hgreatest (y := 0x80) (by decide) (by decide)
    exact ⟨by decide, by simp, .inr ⟨c, u, hc.symm⟩⟩

/-- No subpart is longer than the maximal one, where no scalar value stands. -/
theorem IsSubpart.le_maximalSubpart {bytes : ByteArray} {i : Nat}
    (h : IsSubpart (bytes.data.toList.drop i) n)
    (hstuck : ∀ c : Char, ¬String.utf8EncodeChar c <+: bytes.data.toList.drop i) :
    n ≤ maximalSubpart bytes i := by
  by_cases hn : n = 1
  · exact hn ▸ maximalSubpart_pos bytes i
  obtain ⟨a, x, t, least, greatest, len, hrest, hlead, hleast, hgreatest, hcase⟩ :=
    h.exists_secondByte? hn hstuck
  have hsecond : byteBetween bytes (i + 1) least greatest = true :=
    (byteBetween_iff ..).2 ⟨x, by simp [hrest], hleast, hgreatest⟩
  have hthird (h : ∃ y ∈ t.head?, 128 ≤ y.toNat ∧ y.toNat ≤ 191) :
      byteBetween bytes (i + 2) 0x80 0xBF = true := by
    obtain ⟨y, hy, hmin, hmax⟩ := h
    exact (byteBetween_iff ..).2 ⟨y, by simpa [hrest, List.head?_eq_getElem?] using hy, hmin, hmax⟩
  unfold maximalSubpart
  rw [getElem?_eq_head?_drop, hrest, List.head?_cons, Option.bind_some, hlead]
  simp only [hsecond, Bool.not_true, Bool.false_eq_true, if_false]
  obtain rfl | ⟨rfl, rfl, hy⟩ := hcase
  · split <;> decide
  · rw [hthird hy]
    decide

theorem isGreatest_maximalSubpart {bytes : ByteArray} {i : Nat} (hi : i < bytes.size)
    (hstuck : ∀ c : Char, ¬String.utf8EncodeChar c <+: bytes.data.toList.drop i) :
    IsGreatest {n | IsSubpart (bytes.data.toList.drop i) n} (maximalSubpart bytes i) :=
  ⟨isSubpart_maximalSubpart hi, fun _ h => h.le_maximalSubpart hstuck⟩

/-! ### The whole input -/

theorem toList_extract_size (bytes : ByteArray) (i : Nat) :
    (bytes.extract i bytes.size).data.toList = bytes.data.toList.drop i := by
  rw [ByteArray.data_extract, Array.toList_extract, List.extract_eq_take_drop]
  exact List.take_of_length_le (by simp)

theorem toList_utf8Encode (text : List Char) :
    text.utf8Encode.data.toList = text.flatMap String.utf8EncodeChar := by
  rw [List.utf8Encode, List.data_toByteArray]

/-- A scalar value is read where its form stands. -/
theorem utf8DecodeChar?_eq_some_iff {bytes : ByteArray} {i : Nat} :
    bytes.utf8DecodeChar? i = some c ↔ String.utf8EncodeChar c <+: bytes.data.toList.drop i := by
  rw [← toList_extract_size]
  constructor
  · intro h
    rw [extract_eq_of_utf8DecodeChar? h, ByteArray.toList_data_append, toList_utf8Encode]
    simp
  · rintro ⟨rest, hrest⟩
    have hsplit : bytes.extract i bytes.size = [c].utf8Encode ++ rest.toByteArray := by
      rw [ByteArray.ext_iff, ← Array.toList_inj, ← hrest, ByteArray.toList_data_append, toList_utf8Encode,
        List.data_toByteArray, List.flatMap_singleton]
    rw [ByteArray.utf8DecodeChar?_eq_utf8DecodeChar?_extract, hsplit]
    exact List.utf8DecodeChar?_utf8Encode_singleton_append

theorem eq_of_isPrefix {d : Char} (hc : String.utf8EncodeChar c <+: bytes)
    (hd : String.utf8EncodeChar d <+: bytes) : c = d := by
  have hread {e : Char} (h : String.utf8EncodeChar e <+: bytes) :
      bytes.toByteArray.utf8DecodeChar? 0 = some e := by
    rw [utf8DecodeChar?_eq_some_iff, List.data_toByteArray]
    exact h
  exact Option.some.inj ((hread hc).symm.trans (hread hd))

theorem lossyFrom_spec (bytes : ByteArray) (i : Nat) (seen : List Char) :
    ∃ text, lossyFrom bytes i seen = seen.reverse ++ text ∧ Mends (bytes.data.toList.drop i) text := by
  induction i, seen using lossyFrom.induct bytes with
  | case1 i seen hi c hread ih =>
    obtain ⟨text, heq, hmends⟩ := ih
    refine ⟨c :: text, ?_, ?_⟩
    · rw [lossyFrom, if_pos hi, hread]
      simp [heq]
    · obtain ⟨rest, hrest⟩ := utf8DecodeChar?_eq_some_iff.1 hread
      rw [← List.drop_drop, ← hrest, List.drop_left' (String.length_utf8EncodeChar c)] at hmends
      exact hrest ▸ hmends.scalar c
  | case2 i seen hi hread ih =>
    obtain ⟨text, heq, hmends⟩ := ih
    have hstuck (c : Char) : ¬String.utf8EncodeChar c <+: bytes.data.toList.drop i := by
      rw [← utf8DecodeChar?_eq_some_iff, hread]
      nofun
    refine ⟨'\ufffd' :: text, ?_, ?_⟩
    · rw [lossyFrom, if_pos hi, hread]
      simp [heq]
    · rw [← List.drop_drop] at hmends
      exact .replaced hstuck (isGreatest_maximalSubpart hi hstuck) hmends
  | case3 i seen hi =>
    refine ⟨[], ?_, ?_⟩
    · rw [lossyFrom, if_neg hi, List.append_nil]
    · rw [List.drop_eq_nil_of_le (by simpa using hi)]
      exact .nil

/-- The lossy decoding says what the bytes say, with one U+FFFD for each maximal subpart. -/
theorem mends_decodeLossy (bytes : ByteArray) : Mends bytes.data.toList (decodeLossy bytes) := by
  obtain ⟨text, heq, hmends⟩ := lossyFrom_spec bytes 0 []
  rw [decodeLossy, heq]
  exact hmends

theorem not_isGreatest_nil : ¬IsGreatest {n | IsSubpart [] n} n := by
  rintro ⟨h, -⟩
  exact absurd (Nat.le_trans h.pos h.le_length) (by simp)

/-- Bytes are mended in one way only. -/
theorem Mends.unique (h : Mends bytes text) (hmended : Mends bytes mended) : mended = text := by
  induction h generalizing mended with
  | nil =>
    generalize hbytes : ([] : List UInt8) = bytes at hmended
    cases hmended with
    | nil => rfl
    | scalar c h => simp [String.utf8EncodeChar_ne_nil] at hbytes
    | replaced hstuck hmax h => exact absurd (hbytes ▸ hmax) not_isGreatest_nil
  | @scalar c rest text h ih =>
    generalize hbytes : String.utf8EncodeChar c ++ rest = bytes at hmended
    have hc : String.utf8EncodeChar c <+: bytes := hbytes ▸ List.prefix_append ..
    cases hmended with
    | nil => simp [String.utf8EncodeChar_ne_nil] at hbytes
    | scalar d h =>
      obtain rfl := eq_of_isPrefix hc (List.prefix_append ..)
      obtain rfl := List.append_cancel_left hbytes
      rw [ih h]
    | replaced hstuck hmax h => exact absurd hc (hstuck c)
  | @replaced bytes n text hstuck hmax h ih =>
    cases hmended with
    | nil => exact absurd hmax not_isGreatest_nil
    | scalar c h => exact absurd (List.prefix_append ..) (hstuck c)
    | replaced hstuck hmax' h =>
      obtain rfl := hmax.unique hmax'
      rw [ih h]

theorem Mends.append {rest : List UInt8} (h : Mends rest mended) (text : List Char) :
    Mends (text.flatMap String.utf8EncodeChar ++ rest) (text ++ mended) := by
  induction text with
  | nil => exact h
  | cons c text ih =>
    rw [List.flatMap_cons, List.append_assoc]
    exact ih.scalar c

/-- Text that bytes begin with is kept. -/
theorem decodeLossy_append (text : List Char) (rest : ByteArray) :
    decodeLossy (text.utf8Encode ++ rest) = text ++ decodeLossy rest := by
  have hmends := (mends_decodeLossy rest).append text
  rw [← toList_utf8Encode, ← ByteArray.toList_data_append] at hmends
  exact hmends.unique (mends_decodeLossy _)

end InlineMarkup.Utf8
