import InlineMarkup.Proofs.Lexemes

/-! The grammar of tokens: a text is cut into lexemes, and it can be cut in one way only. -/

namespace InlineMarkup

/-- Whether pieces are the text cut into lexemes, each of them seen with all that stands before and
after it. Of two texts side by side at most one is plain. -/
structure Lexed (options : ScanOptions) (text : List Char) (pieces : List (TokenKind × List Char)) :
    Prop where
  covers : textOf pieces = text
  lexeme : ∀ ps kind raw qs, pieces = ps ++ (kind, raw) :: qs →
    Lexeme options (textOf ps) kind raw (textOf qs)
  apart : ∀ ps raw raw' qs, pieces = ps ++ (.text, raw) :: (.text, raw') :: qs →
    ¬(PlainText raw ∧ PlainText raw')

theorem Token.map_piece_placeFrom (pos : Nat) (pieces : List (TokenKind × List Char)) :
    (placeFrom pos pieces).map piece = pieces := by
  induction pieces generalizing pos with
  | nil => rfl
  | cons piece pieces ih =>
    rw [placeFrom, List.map_cons, ih]
    rfl

namespace Stretch

variable {options : ScanOptions} {lastParen : Option Nat} {before raw : List Char}
  {stretch next : Stretch} {stretches : List Stretch}

/-- The last `)` of a text is the last one of every rest of it. -/
theorem covers_rest {text rest : List Char} (htext : text = before ++ rest) :
    Covers (lastOffset? ')' text) (byteSize before) rest := by
  have hcovers := covers_lastOffset? text
  generalize lastOffset? ')' text = lastParen at hcovers
  rw [htext] at hcovers
  simpa using hcovers.drop

theorem Passed.next_of_plain {ps : List Stretch}
    (h : Passed options lastParen before (ps ++ stretch :: next :: stretches))
    (hplain : stretch.construct = none) : next.construct ≠ none := by
  induction ps generalizing before with
  | nil => exact h.2.1 hplain next rfl
  | cons first ps ih => exact ih h.2.2

/-- What a scan passes over is cut into lexemes. -/
theorem Passed.lexed {text : List Char} (h : Passed options (lastOffset? ')' text) [] stretches)
    (htext : stretches.flatMap Stretch.raw = text) : Lexed options text (stretches.map piece) := by
  refine ⟨(textOf_map_piece _).trans htext, ?_, ?_⟩
  · intro ps kind raw qs hsplit
    obtain ⟨before, rest, rfl, rfl, hrest⟩ := List.map_eq_append_iff.1 hsplit
    obtain ⟨stretch, after, rfl, hpiece, rfl⟩ := List.map_eq_cons_iff.1 hrest
    have hstands := h.stands
    rw [List.nil_append] at hstands
    rw [List.flatMap_append, List.flatMap_cons] at htext
    obtain ⟨hkind, hraw⟩ : stretch.kind = kind ∧ stretch.raw = raw := Prod.mk.inj hpiece
    rw [textOf_map_piece, textOf_map_piece, ← hkind, ← hraw]
    exact hstands.lexeme (covers_rest htext.symm)
  · rintro ps raw raw' qs hsplit ⟨hplain, hplain'⟩
    obtain ⟨before, rest, rfl, rfl, hrest⟩ := List.map_eq_append_iff.1 hsplit
    obtain ⟨stretch, rest, rfl, hpiece, hrest'⟩ := List.map_eq_cons_iff.1 hrest
    obtain ⟨next, after, rfl, hpiece', rfl⟩ := List.map_eq_cons_iff.1 hrest'
    obtain ⟨hkind, rfl⟩ : stretch.kind = .text ∧ stretch.raw = raw := Prod.mk.inj hpiece
    obtain ⟨hkind', rfl⟩ : next.kind = .text ∧ next.raw = raw' := Prod.mk.inj hpiece'
    have hnext : Passed options (lastOffset? ')' text) [] (before ++ [stretch] ++ next :: after) := by
      simpa using h
    exact h.next_of_plain (h.stands.construct_eq_none hkind hplain)
      (hnext.stands.construct_eq_none hkind' hplain')

/-- A scan passes over a text as it is cut into lexemes. -/
theorem exists_passed_of_lexed {text : List Char} {pieces : List (TokenKind × List Char)}
    (h : Lexed options text pieces) {ps qs : List (TokenKind × List Char)} (hpieces : pieces = ps ++ qs) :
    ∃ stretches, stretches.map piece = qs ∧
      Passed options (lastOffset? ')' text) (textOf ps) stretches := by
  induction qs generalizing ps with
  | nil => exact ⟨[], rfl, trivial⟩
  | cons first qs ih =>
    obtain ⟨kind, raw⟩ := first
    obtain ⟨stretches, rfl, hpassed⟩ := @ih (ps ++ [(kind, raw)]) (by simp [hpieces])
    have htext : text = textOf ps ++ (raw ++ textOf (stretches.map piece)) := by
      rw [← h.covers, hpieces, textOf_append, textOf_cons]
    obtain ⟨stretch, hpiece, hstands⟩ :=
      (h.lexeme ps kind raw _ hpieces).exists_stands (covers_rest htext)
    obtain ⟨hkind, hraw⟩ : stretch.kind = kind ∧ stretch.raw = raw := Prod.mk.inj hpiece
    refine ⟨stretch :: stretches, by rw [List.map_cons, hpiece], ?_, ?_, ?_⟩
    · rwa [← textOf_map_piece]
    · intro hplain next hnext hplain'
      obtain ⟨rest, rfl⟩ := List.head?_eq_some_iff.1 hnext
      obtain rfl : kind = .text := by rw [← hkind, Stretch.kind, hplain]; rfl
      have hkind' : next.kind = .text := by rw [Stretch.kind, hplain']; rfl
      refine h.apart ps raw next.raw (rest.map piece) ?_
        ⟨hraw ▸ hstands.plainText hplain, hpassed.1.plainText hplain'⟩
      rw [hpieces, List.map_cons, piece, hkind']
    · rw [hraw]
      simpa using hpassed

end Stretch

/-- A scan cuts a text into lexemes. -/
theorem lexed_scan (options : ScanOptions) (text : List Char) :
    Lexed options text (scan options text).pieces := by
  obtain ⟨stretches, hpassed, htext, htokens, -⟩ := exists_stretches options text
  rw [Scanned.pieces, htokens, Token.map_piece_placeFrom]
  exact hpassed.lexed htext

/-- The tokens of a text are its lexemes: pieces are those of the scan if and only if the text is cut
into them as the grammar asks. -/
theorem pieces_scan_iff (options : ScanOptions) (text : List Char)
    (pieces : List (TokenKind × List Char)) :
    (scan options text).pieces = pieces ↔ Lexed options text pieces := by
  obtain ⟨stretches, hpassed, htext, htokens, -⟩ := exists_stretches options text
  have hscan : (scan options text).pieces = stretches.map Stretch.piece := by
    rw [Scanned.pieces, htokens, Token.map_piece_placeFrom]
  rw [hscan]
  constructor
  · rintro rfl
    exact hpassed.lexed htext
  · intro h
    obtain ⟨others, rfl, hothers⟩ := Stretch.exists_passed_of_lexed h (List.nil_append _).symm
    have hcovers := h.covers
    rw [Stretch.textOf_map_piece] at hcovers
    rw [hpassed.unique hothers (htext.trans hcovers.symm)]

end InlineMarkup
