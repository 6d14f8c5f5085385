import InlineMarkup.Text.Bytes
import InlineMarkup.Text.Utf8
import Mathlib.Order.Bounds.Defs

/-! Decoding: bytes that are the UTF-8 form of a text give that text, and of other bytes the longest
beginning that is UTF-8 is found. -/

namespace InlineMarkup

theorem size_utf8Encode (text : List Char) : text.utf8Encode.size = byteSize text := by
  induction text with
  | nil => rfl
  | cons c text ih =>
    rw [List.utf8Encode_cons, ByteArray.size_append, ih, byteSize_cons, List.utf8Encode_singleton,
      List.size_toByteArray, String.length_utf8EncodeChar]

namespace Utf8

variable {bytes rest tail : ByteArray} {text more : List Char} {c : Char} {i : Nat}

theorem utf8Encode_cons_append (c : Char) (text : List Char) (rest : ByteArray) :
    (c :: text).utf8Encode ++ rest = [c].utf8Encode ++ (text.utf8Encode ++ rest) := by
  rw [List.utf8Encode_cons, ByteArray.append_assoc]

theorem utf8DecodeChar?_cons (c : Char) (text : List Char) (rest : ByteArray) :
    ((c :: text).utf8Encode ++ rest).utf8DecodeChar? 0 = some c := by
  rw [utf8Encode_cons_append]
  exact List.utf8DecodeChar?_utf8Encode_singleton_append

/-- A scalar value that is read is followed by what is left. -/
theorem extract_eq_of_utf8DecodeChar? (h : bytes.utf8DecodeChar? i = some c) :
    bytes.extract i bytes.size = [c].utf8Encode ++ bytes.extract (i + c.utf8Size) bytes.size := by
  have hle := ByteArray.le_size_of_utf8DecodeChar?_eq_some h
  rw [ByteArray.utf8DecodeChar?_eq_utf8DecodeChar?_extract] at h
  have hsplit := ByteArray.eq_of_utf8DecodeChar?_eq_some h
  rw [ByteArray.extract_extract, ByteArray.size_extract, ← List.utf8Encode_singleton] at hsplit
  rw [hsplit]
  congr 2
  omega

/-- Whether bytes are the UTF-8 form of a text, and then bytes that start with no scalar value. -/
structure Splits (bytes : ByteArray) (text : List Char) (rest : ByteArray) : Prop where
  eq : bytes = text.utf8Encode ++ rest
  stuck : rest.utf8DecodeChar? 0 = none

/-- No longer text stands at the beginning of the bytes. -/
theorem Splits.isPrefix (h : Splits bytes text rest) (hmore : bytes = more.utf8Encode ++ tail) :
    more <+: text := by
  have heq := h.eq.symm.trans hmore
  clear hmore
  induction more generalizing bytes text with
  | nil => exact List.nil_prefix
  | cons c more ih =>
    have hread := utf8DecodeChar?_cons c more tail
    rw [← heq] at hread
    cases text with
    | nil =>
      rw [List.utf8Encode_nil, ByteArray.empty_append, h.stuck] at hread
      cases hread
    | cons d text =>
      rw [utf8DecodeChar?_cons] at hread
      obtain rfl := Option.some.inj hread
      rw [utf8Encode_cons_append d text, utf8Encode_cons_append d more, ByteArray.append_right_inj] at heq
      exact List.cons_prefix_cons.2 ⟨rfl, ih ⟨rfl, h.stuck⟩ heq⟩

theorem readFrom_of_eq_some {seen : List Char} (h : bytes.utf8DecodeChar? i = some c) :
    readFrom bytes i seen = readFrom bytes (i + c.utf8Size) (c :: seen) := by
  rw [readFrom]
  split
  · rename_i d hd
    obtain rfl := Option.some.inj (h.symm.trans hd)
    rfl
  · rename_i hnone
    cases h.symm.trans hnone

theorem readFrom_of_eq_none {seen : List Char} (h : bytes.utf8DecodeChar? i = none) :
    readFrom bytes i seen = (seen.reverse, i) := by
  rw [readFrom]
  split
  · rename_i hsome
    cases h.symm.trans hsome
  · rfl

theorem readFrom_spec (bytes : ByteArray) (i : Nat) (seen : List Char) (hi : i ≤ bytes.size) :
    ∃ text, readFrom bytes i seen = (seen.reverse ++ text, i + byteSize text) ∧
      i + byteSize text ≤ bytes.size ∧
      Splits (bytes.extract i bytes.size) text (bytes.extract (i + byteSize text) bytes.size) := by
  induction i, seen using readFrom.induct bytes with
  | case1 i seen c hread ih =>
    obtain ⟨text, heq, hle, hsplits⟩ := ih (ByteArray.le_size_of_utf8DecodeChar?_eq_some hread)
    have hstop : i + c.utf8Size + byteSize text = i + byteSize (c :: text) := by
      rw [byteSize_cons, Nat.add_assoc]
    rw [hstop] at heq hle hsplits
    refine ⟨c :: text, ?_, hle, ?_, hsplits.stuck⟩
    · rw [readFrom_of_eq_some hread, heq, List.reverse_cons, List.append_assoc, List.singleton_append]
    · rw [extract_eq_of_utf8DecodeChar? hread, hsplits.eq, utf8Encode_cons_append c text]
  | case2 i seen hread =>
    refine ⟨[], ?_, hi, ?_, ?_⟩
    · rw [readFrom_of_eq_none hread, List.append_nil]
      rfl
    · rw [List.utf8Encode_nil, ByteArray.empty_append]
      rfl
    · rwa [← ByteArray.utf8DecodeChar?_eq_utf8DecodeChar?_extract]

theorem exists_decode (bytes : ByteArray) : ∃ text rest, Splits bytes text rest ∧
    decode bytes = if rest.size = 0 then .ok text else .error text.utf8Encode.size := by
  obtain ⟨text, hread, hle, hsplits⟩ := readFrom_spec bytes 0 [] (Nat.zero_le _)
  rw [ByteArray.extract_zero_size, Nat.zero_add] at hsplits
  rw [Nat.zero_add] at hread hle
  refine ⟨text, _, hsplits, ?_⟩
  rw [decode, hread, ByteArray.size_extract, Nat.min_self, size_utf8Encode]
  simp only [List.reverse_nil, List.nil_append]
  by_cases hend : byteSize text = bytes.size
  · rw [if_pos hend, if_pos (by omega)]
  · rw [if_neg hend, if_neg (by omega)]

/-- Bytes are decoded to the text that they are the UTF-8 form of. -/
theorem decode_eq_ok_iff : decode bytes = .ok text ↔ bytes = text.utf8Encode := by
  obtain ⟨read, rest, hsplits, hdecode⟩ := exists_decode bytes
  rw [hdecode]
  constructor
  · intro h
    split at h
    · rename_i hempty
      obtain rfl := Except.ok.inj h
      rw [hsplits.eq, ByteArray.size_eq_zero_iff.1 hempty, ByteArray.append_empty]
    · cases h
  · rintro rfl
    obtain ⟨more, rfl⟩ := hsplits.isPrefix ByteArray.append_empty.symm
    have hsize := congrArg ByteArray.size hsplits.eq
    rw [List.utf8Encode_append, ByteArray.size_append, ByteArray.size_append] at hsize
    have hmore : more = [] := List.utf8Encode_eq_empty.1 (ByteArray.size_eq_zero_iff.1 (by omega))
    rw [if_pos (by omega), hmore, List.append_nil]

/-- The longest beginning of the bytes that is the UTF-8 form of a text. -/
theorem Splits.isGreatest (h : Splits bytes text rest) :
    IsGreatest {k | k ≤ bytes.size ∧ (bytes.extract 0 k).IsValidUTF8} text.utf8Encode.size := by
  constructor
  · refine ⟨?_, text, ?_⟩
    · rw [h.eq, ByteArray.size_append]
      exact Nat.le_add_right ..
    · rw [h.eq]
      exact ByteArray.extract_append_eq_left rfl
  · rintro k ⟨hk, more, hmore⟩
    have hsplit : bytes = more.utf8Encode ++ bytes.extract k bytes.size := by
      rw [← hmore, ← ByteArray.extract_eq_extract_append_extract k (Nat.zero_le k) hk,
        ByteArray.extract_zero_size]
    obtain ⟨after, rfl⟩ := h.isPrefix hsplit
    have hsize := congrArg ByteArray.size hmore
    rw [ByteArray.size_extract] at hsize
    rw [List.utf8Encode_append, ByteArray.size_append]
    omega

/-- Bytes that are the UTF-8 form of no text are read up to the end of the longest beginning that is. -/
theorem exists_of_not_isValidUTF8 (h : ¬bytes.IsValidUTF8) : ∃ text rest, Splits bytes text rest ∧
    decode bytes = .error text.utf8Encode.size := by
  obtain ⟨text, rest, hsplits, hdecode⟩ := exists_decode bytes
  refine ⟨text, rest, hsplits, hdecode.trans (if_neg fun hempty => h ⟨text, ?_⟩)⟩
  rw [hsplits.eq, ByteArray.size_eq_zero_iff.1 hempty, ByteArray.append_empty]

end Utf8

end InlineMarkup
