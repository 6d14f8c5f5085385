import InlineMarkup.Proofs.Demotions
import InlineMarkup.Proofs.Faults
import InlineMarkup.Proofs.InputPolicy

/-! Logging: which lines an engine writes about an input that it accepts. -/

namespace InlineMarkup

/-- Whether the line says that the trigger at the start of the token made no more than that. -/
def LogLine.Degrades (line : LogLine) (token : Token) : Prop :=
  ∃ trigger : Trigger, token.raw.head? = some trigger.char ∧
    line = .degraded trigger token.pos token.kind

namespace Stretch

variable {options : ScanOptions} {lastParen : Option Nat} {before after : List Char} {stretch : Stretch}
  {stretches : List Stretch} {pos : Nat} {finding : Finding}

/-- What is found in a stretch is found at the start of its token. -/
theorem Stands.degrades (h : Stands options lastParen before after stretch)
    (hfinding : finding ∈ stretch.construct.bind (·.finding? pos)) :
    (LogLine.ofFinding finding).Degrades (stretch.token pos) := by
  cases h with
  | plain hraw hnone => cases hfinding
  | @construct c t _ hconstruct hlen =>
    rcases Scan.construct?_eq_some hconstruct with ⟨trigger, rfl, -, rfl⟩ | ⟨-, -, len, -, rfl⟩
    · obtain ⟨warning, -, rfl⟩ := Option.map_eq_some_iff.1 hfinding
      exact ⟨trigger, rfl, rfl⟩
    · cases hfinding

theorem Stands.degrades_filter (h : Stands options lastParen before after stretch)
    (hcovers : Covers lastParen (byteSize before) (stretch.raw ++ after)) :
    List.Forall₂ LogLine.Degrades
      ((stretch.construct.bind (·.finding? (byteSize before))).toList.map LogLine.ofFinding)
      ([stretch.token (byteSize before)].filter Token.isFaulty) := by
  have hreports := h.reports hcovers
  by_cases hfaulty : (stretch.token (byteSize before)).isFaulty
  · rw [List.filter_cons_of_pos hfaulty, List.filter_nil] at hreports ⊢
    cases hfinding : stretch.construct.bind (·.finding? (byteSize before)) with
    | none => rw [hfinding] at hreports; cases hreports
    | some finding => exact .cons (h.degrades hfinding) .nil
  · rw [List.filter_cons_of_neg hfaulty, List.filter_nil] at hreports ⊢
    cases hfinding : stretch.construct.bind (·.finding? (byteSize before)) with
    | none => exact .nil
    | some finding => rw [hfinding] at hreports; cases hreports

/-- A line is written about every token that is faulty, and about no other one. -/
theorem degrades_passed (h : Passed options lastParen before stretches)
    (hcovers : Covers lastParen (byteSize before) (stretches.flatMap raw)) :
    List.Forall₂ LogLine.Degrades
      ((findingsFrom (byteSize before) stretches).map LogLine.ofFinding)
      ((Token.placeFrom (byteSize before) (stretches.map piece)).filter Token.isFaulty) := by
  induction stretches generalizing before with
  | nil => exact .nil
  | cons stretch stretches ih =>
    have hrest := ih h.2.2 (by rw [byteSize_append]; exact hcovers.drop)
    have htokens : Token.placeFrom (byteSize before) ((stretch :: stretches).map piece) =
        [stretch.token (byteSize before)] ++
          Token.placeFrom (byteSize before + byteSize stretch.raw) (stretches.map piece) := rfl
    rw [byteSize_append] at hrest
    rw [findingsFrom, List.map_append, htokens, List.filter_append]
    exact List.rel_append (h.1.degrades_filter hcovers) hrest

end Stretch

open Assembly

/-- What the lines about tokens say of a text that is parsed: one line for each warning, about the token
that is warned of, and one for each delimiter that may open a tag and delimits no node. -/
structure Reported (options : ScanOptions) (text : List Char) (warnings : Array Warning)
    (traces debugs : List LogLine) : Prop where
  warned : List.Forall₂ (Warning.Reports text) warnings.toList
    ((scan options text).tokens.toList.filter Token.isFaulty)
  degraded : List.Forall₂ LogLine.Degrades traces
    ((scan options text).tokens.toList.filter Token.isFaulty)
  degradedLevel : ∀ line ∈ traces, line.level = .trace
  demoted : ∃ tree, syntaxTree? options text = some tree ∧
    (tree.delimits false).length = (scan options text).tokens.size ∧
    debugs.Perm ((reports (scan options text).tokens.toList 0 (tree.delimits false)).map
      LogLine.ofRecovery)
  demotedLevel : ∀ line ∈ debugs, line.level = .debug

theorem reported_parseWith (options : ScanOptions) (text : List Char) :
    Reported options text (parseWith options text).warnings
      ((parseWith options text).findings.toList.map LogLine.ofFinding)
      ((parseWith options text).recoveries.toList.map LogLine.ofRecovery) := by
  obtain ⟨stretches, hpassed, rfl, htokens, hfindings⟩ := exists_stretches options text
  have hcovers := covers_lastOffset? (stretches.flatMap Stretch.raw)
  have hreports := Stretch.reports_passed hpassed hcovers
  have hdegrades := Stretch.degrades_passed hpassed hcovers
  refine ⟨?_, ?_, ?_, ?_, ?_⟩
  · rw [Parse.warnings, Array.toList_map, parseWith, hfindings, htokens]
    exact hreports
  · rw [parseWith, hfindings, htokens]
    exact hdegrades
  · exact List.forall_mem_map.2 fun finding _ => rfl
  · obtain ⟨tree, htree, hlength, hperm⟩ := perm_recoveries
      (scan options (stretches.flatMap Stretch.raw)).tokens.toList
    exact ⟨tree, htree, hlength, hperm.map _⟩
  · refine List.forall_mem_map.2 fun recovery _ => ?_
    cases recovery <;> rfl

namespace Engine

variable {engine : Engine} {text : List Char} {parsed : Parsed}

theorem exists_log_answer (engine : Engine) (before : List LogLine) (text : List Char)
    (h : (engine.answer before text).result = .ok parsed) :
    ∃ traces debugs, (engine.answer before text).log = before ++ traces ++ debugs ++
        [.parsed (byteSize text) parsed.warnings.size parsed.textLength] ∧
      Reported ⟨engine.config.bareUrls⟩ text parsed.warnings traces debugs := by
  obtain rfl : (engine.run text).1 = parsed := Except.ok.inj h
  have hsize : (engine.run text).1.warnings.size =
      (parseWith ⟨engine.config.bareUrls⟩ text).findings.size := Array.size_map
  refine ⟨_, _, ?_, reported_parseWith _ text⟩
  rw [hsize]
  simp only [answer, run, List.append_assoc]

/-- The lines about an input that is accepted, in their order: one about bytes that were replaced, if there
were any, those about its tokens, and the sums at last. -/
theorem log_accepted (engine : Engine) (parsed : Parsed) :
    (∀ text, (engine.parse text).result = .ok parsed → ∃ traces debugs,
      (engine.parse text).log =
        traces ++ debugs ++ [.parsed (byteSize text) parsed.warnings.size parsed.textLength] ∧
      Reported ⟨engine.config.bareUrls⟩ text parsed.warnings traces debugs) ∧
    ∀ bytes, (engine.parseBytes bytes).result = .ok parsed → ∃ text warns traces debugs,
      (engine.parseBytes bytes).log = warns ++ traces ++ debugs ++
        [.parsed (byteSize text) parsed.warnings.size parsed.textLength] ∧
      Reported ⟨engine.config.bareUrls⟩ text parsed.warnings traces debugs ∧
      (bytes = text.utf8Encode ∧ byteSize text = bytes.size ∧ warns = [] ∨
        ¬bytes.IsValidUTF8 ∧ text = Utf8.decodeLossy bytes ∧
          ∃ offset, warns = [.replacedUtf8 offset]) := by
  have htext (text : List Char) (h : (engine.parse text).result = .ok parsed) : ∃ traces debugs,
      (engine.parse text).log =
        [] ++ traces ++ debugs ++ [.parsed (byteSize text) parsed.warnings.size parsed.textLength] ∧
      Reported ⟨engine.config.bareUrls⟩ text parsed.warnings traces debugs := by
    rcases Nat.lt_or_ge engine.config.maxInputBytes (byteSize text) with hlt | hle
    · rw [parse, if_pos hlt] at h
      cases h
    · rw [parse_of_le hle] at h ⊢
      exact exists_log_answer engine [] text h
  refine ⟨htext, fun bytes h => ?_⟩
  by_cases hvalid : bytes.IsValidUTF8
  · obtain ⟨text, rfl⟩ := hvalid
    rw [parseBytes_utf8Encode] at h ⊢
    obtain ⟨traces, debugs, hlog, hreported⟩ := htext text h
    exact ⟨text, [], traces, debugs, hlog, hreported, .inl ⟨rfl, (size_utf8Encode text).symm, rfl⟩⟩
  · obtain ⟨text, rest, hsplits, hdecode⟩ := Utf8.exists_of_not_isValidUTF8 hvalid
    rcases Nat.lt_or_ge engine.config.maxInputBytes bytes.size with hlt | hle
    · rw [parseBytes_of_lt hlt] at h
      cases h
    · rw [parseBytes, if_neg (Nat.not_lt.2 hle), hdecode] at h ⊢
      cases hpolicy : engine.config.invalidUtf8 with
      | reject => rw [hpolicy] at h; cases h
      | replace =>
        rw [hpolicy] at h
        obtain ⟨traces, debugs, hlog, hreported⟩ := exists_log_answer engine _ _ h
        exact ⟨_, _, traces, debugs, hlog, hreported, .inr ⟨hvalid, rfl, _, rfl⟩⟩

/-- A letter and a byte that no text has. -/
def letterThenStrayByte : ByteArray := ⟨#[0x61, 0xFF]⟩

theorem result_letterThenStrayByte : (parseBytes {} letterThenStrayByte).result =
    .ok (run {} (Utf8.decodeLossy letterThenStrayByte)).1 := by
  have hdecode : Utf8.decode letterThenStrayByte = .error 1 := by decide +kernel
  rw [parseBytes_of_error (by decide) hdecode]

/-- A tilde by itself, and a bracket that is never closed. -/
def tildeThenBracket : List Char := ['~', '[', 'a']

theorem result_tildeThenBracket :
    (parse {} tildeThenBracket).result = .ok (run {} tildeThenBracket).1 := by
  rw [parse_of_le (by decide)]
  rfl

theorem log_accepted_tildeThenBracket : (∃ parsed, (parse {} tildeThenBracket).result = .ok parsed ∧
    ∃ traces debugs, (parse {} tildeThenBracket).log = traces ++ debugs ++
        [.parsed (byteSize tildeThenBracket) parsed.warnings.size parsed.textLength] ∧
      Reported {} tildeThenBracket parsed.warnings traces debugs) ∧
    ∃ parsed, (parseBytes {} letterThenStrayByte).result = .ok parsed ∧ ∃ text warns traces debugs,
      (parseBytes {} letterThenStrayByte).log = warns ++ traces ++ debugs ++
        [.parsed (byteSize text) parsed.warnings.size parsed.textLength] ∧
      Reported {} text parsed.warnings traces debugs ∧
      (letterThenStrayByte = text.utf8Encode ∧ byteSize text = letterThenStrayByte.size ∧ warns = [] ∨
        ¬letterThenStrayByte.IsValidUTF8 ∧ text = Utf8.decodeLossy letterThenStrayByte ∧
          ∃ offset, warns = [.replacedUtf8 offset]) :=
  ⟨⟨_, result_tildeThenBracket, (log_accepted {} _).1 _ result_tildeThenBracket⟩,
    _, result_letterThenStrayByte, (log_accepted {} _).2 _ result_letterThenStrayByte⟩

/-- The sums are those of the text that bytes are mended to: these two bytes become four. -/
theorem log_letterThenStrayByte_ne : (∃ parsed, (parseBytes {} letterThenStrayByte).result = .ok parsed) ∧
    ∀ warnings textLength, (parseBytes {} letterThenStrayByte).log.getLast? ≠
      some (.parsed letterThenStrayByte.size warnings textLength) := by
  refine ⟨⟨_, result_letterThenStrayByte⟩, fun warnings textLength h => ?_⟩
  have hlog : (parseBytes {} letterThenStrayByte).log = [.replacedUtf8 1, .parsed 4 0 2] := by
    decide +kernel
  rw [hlog] at h
  exact absurd (LogLine.parsed.inj (Option.some.inj h)).1 (by decide)

example : (parse {} tildeThenBracket).log =
    [.degraded .tilde 0 .text, .demoted .link ['['], .parsed 3 1 3] := by decide +kernel

end Engine

end InlineMarkup
