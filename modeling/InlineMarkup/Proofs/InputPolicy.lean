import InlineMarkup.Engine.Basic
import InlineMarkup.Proofs.Mending

/-! The input policy: what an engine makes of bytes that are too many, or not UTF-8. -/

namespace InlineMarkup

namespace Utf8

variable {bytes rest : ByteArray} {text : List Char}

/-- Decoding keeps the longest beginning that is UTF-8. -/
theorem Splits.extract_decodeLossy (h : Splits bytes text rest) :
    (decodeLossy bytes).utf8Encode.extract 0 text.utf8Encode.size =
      bytes.extract 0 text.utf8Encode.size := by
  rw [h.eq, decodeLossy_append, List.utf8Encode_append, ByteArray.extract_append_eq_left rfl,
    ByteArray.extract_append_eq_left rfl]

end Utf8

namespace Engine

variable {engine other : Engine} {bytes : ByteArray} {text : List Char} {offset : Nat}

/-- Whether a result is what an engine has to say to bytes. -/
structure IsAnswer (engine : Engine) (bytes : ByteArray) (result : Except EngineError Parsed) : Prop where
  /-- The limit comes first, whatever the bytes are. -/
  tooLarge_iff : ∀ len limit, result = .error (.inputTooLarge len limit) ↔
    engine.config.maxInputBytes < bytes.size ∧ len = bytes.size ∧ limit = engine.config.maxInputBytes
  wellFormed : bytes.size ≤ engine.config.maxInputBytes → ∀ text : List Char, bytes = text.utf8Encode →
    result = (engine.parse text).result ∧ ∃ parsed, result = .ok parsed
  reject : bytes.size ≤ engine.config.maxInputBytes → ¬bytes.IsValidUTF8 →
    engine.config.invalidUtf8 = .reject → ∃ n, result = .error (.invalidUtf8 n) ∧
      IsGreatest {k | k ≤ bytes.size ∧ (bytes.extract 0 k).IsValidUTF8} n
  /-- The decoding is parsed as by every engine that it is not too large for. -/
  replace : bytes.size ≤ engine.config.maxInputBytes → ¬bytes.IsValidUTF8 →
    engine.config.invalidUtf8 = .replace → Utf8.Mends bytes.data.toList (Utf8.decodeLossy bytes) ∧
      (∃ parsed, result = .ok parsed ∧
        ∀ other : Engine, other.config.bareUrls = engine.config.bareUrls →
          byteSize (Utf8.decodeLossy bytes) ≤ other.config.maxInputBytes →
          (other.parse (Utf8.decodeLossy bytes)).result = .ok parsed) ∧
      ∃ n, IsGreatest {k | k ≤ bytes.size ∧ (bytes.extract 0 k).IsValidUTF8} n ∧
        (Utf8.decodeLossy bytes).utf8Encode.extract 0 n = bytes.extract 0 n

theorem run_congr (h : other.config.bareUrls = engine.config.bareUrls) (text : List Char) :
    other.run text = engine.run text := by
  unfold run
  rw [h]

theorem parse_of_le (h : byteSize text ≤ engine.config.maxInputBytes) :
    engine.parse text = engine.answer [] text :=
  if_neg (Nat.not_lt.2 h)

theorem parseBytes_of_lt (h : engine.config.maxInputBytes < bytes.size) :
    engine.parseBytes bytes = engine.tooLarge bytes.size :=
  if_pos h

/-- The bytes of a text are treated as the text. -/
theorem parseBytes_utf8Encode (engine : Engine) (text : List Char) :
    engine.parseBytes text.utf8Encode = engine.parse text := by
  rw [parseBytes, parse, size_utf8Encode, Utf8.decode_eq_ok_iff.2 rfl]

theorem parseBytes_of_error (hle : bytes.size ≤ engine.config.maxInputBytes)
    (h : Utf8.decode bytes = .error offset) :
    (engine.parseBytes bytes).result = match engine.config.invalidUtf8 with
      | .reject => .error (.invalidUtf8 offset)
      | .replace => .ok (engine.run (Utf8.decodeLossy bytes)).1 := by
  rw [parseBytes, if_neg (Nat.not_lt.2 hle), h]
  cases engine.config.invalidUtf8 with
  | reject => rfl
  | replace => rfl

theorem ne_tooLarge_of_le (hle : bytes.size ≤ engine.config.maxInputBytes) (len limit : Nat) :
    (engine.parseBytes bytes).result ≠ .error (.inputTooLarge len limit) := by
  rw [parseBytes, if_neg (Nat.not_lt.2 hle)]
  split <;> nofun

/-- An engine keeps its limit, and treats bytes that are not UTF-8 by its policy. -/
theorem isAnswer_parseBytes (engine : Engine) (bytes : ByteArray) :
    engine.IsAnswer bytes (engine.parseBytes bytes).result where
  tooLarge_iff := by
    intro len limit
    constructor
    · intro h
      rcases Nat.lt_or_ge engine.config.maxInputBytes bytes.size with hlt | hle
      · rw [parseBytes_of_lt hlt] at h
        cases h
        exact ⟨hlt, rfl, rfl⟩
      · exact absurd h (ne_tooLarge_of_le hle len limit)
    · rintro ⟨hlt, rfl, rfl⟩
      rw [parseBytes_of_lt hlt]
      rfl
  wellFormed := by
    rintro hle text rfl
    rw [size_utf8Encode] at hle
    rw [parseBytes_utf8Encode, parse_of_le hle]
    exact ⟨rfl, _, rfl⟩
  reject := by
    intro hle hinvalid hpolicy
    obtain ⟨text, rest, hsplits, hdecode⟩ := Utf8.exists_of_not_isValidUTF8 hinvalid
    refine ⟨_, ?_, hsplits.isGreatest⟩
    rw [parseBytes_of_error hle hdecode, hpolicy]
  replace := by
    intro hle hinvalid hpolicy
    obtain ⟨text, rest, hsplits, hdecode⟩ := Utf8.exists_of_not_isValidUTF8 hinvalid
    refine ⟨Utf8.mends_decodeLossy bytes, ⟨(engine.run (Utf8.decodeLossy bytes)).1, ?_, ?_⟩, _,
      hsplits.isGreatest, hsplits.extract_decodeLossy⟩
    · rw [parseBytes_of_error hle hdecode, hpolicy]
    · intro other hurls hfits
      rw [parse_of_le hfits, answer, run_congr hurls]

/-- Three bytes within the limit are parsed, though their decoding is a byte too long for it. -/
example : ((Engine.mk { maxInputBytes := 3, invalidUtf8 := .replace }).parseBytes
    ⟨#[0x61, 0xF0, 0x9F]⟩).result.map Parsed.output = .ok ['a', '\ufffd'] := by decide +kernel

end Engine

end InlineMarkup
