import InlineMarkup.Proofs.Stretches

/-! Tiling: the tokens of a text lie side by side and cover all of its bytes. -/

namespace InlineMarkup

/-- Text that starts no construct, but for an underscore inside a word or beside another one. -/
def PlainText (raw : List Char) : Prop := ∀ c ∈ raw, isTrigger c → c = '_'

namespace Token

/-- Whether tokens lie side by side from byte `start` to byte `stop`. -/
def Tile : Nat → List Token → Nat → Prop
  | start, [], stop => start = stop
  | start, token :: tokens, stop => token.pos = start ∧ Tile token.stop tokens stop

theorem tile_placeFrom (start : Nat) (pieces : List (TokenKind × List Char)) :
    Tile start (placeFrom start pieces) (start + byteSize (textOf pieces)) := by
  induction pieces generalizing start with
  | nil => rfl
  | cons piece pieces ih =>
    refine ⟨rfl, ?_⟩
    rw [textOf_cons, byteSize_append, ← Nat.add_assoc]
    exact ih _

theorem exists_of_mem_placeFrom {start : Nat} {pieces : List (TokenKind × List Char)} {token : Token}
    (h : token ∈ placeFrom start pieces) :
    ∃ ps qs, pieces = ps ++ token.piece :: qs ∧ token.pos = start + byteSize (textOf ps) := by
  induction pieces generalizing start with
  | nil => cases h
  | cons piece pieces ih =>
    rcases List.mem_cons.1 h with rfl | h
    · exact ⟨[], pieces, rfl, rfl⟩
    · obtain ⟨ps, qs, rfl, hpos⟩ := ih h
      exact ⟨piece :: ps, qs, rfl, by rw [hpos, textOf_cons, byteSize_append, Nat.add_assoc]⟩

/-- A token is cut from the text at its bytes. -/
theorem cut?_append (kind : TokenKind) (before raw after : List Char) :
    cut? kind (before ++ (raw ++ after)) (byteSize before) (byteSize raw) =
      some ⟨kind, byteSize before, raw⟩ := by
  rw [cut?, slice?_append, Option.map_some]

end Token

theorem byteSize_pos {raw : List Char} (h : raw ≠ []) : 0 < byteSize raw := by
  obtain ⟨c, raw, rfl⟩ := List.exists_cons_of_ne_nil h
  have := c.utf8Size_pos
  rw [byteSize_cons]
  omega

theorem byteSize_eq_zero_iff {raw : List Char} : byteSize raw = 0 ↔ raw = [] := by
  constructor
  · intro hzero
    by_contra hne
    exact Nat.ne_of_gt (byteSize_pos hne) hzero
  · rintro rfl
    rfl

/-- The last occurrence of a scalar value lies inside the text. -/
theorem lt_of_lastOffset?_go {c : Char} {text : List Char} {index last : Nat} {found : Option Nat}
    (hfound : ∀ n ∈ found, n < index) (h : lastOffset?.go c text index found = some last) :
    last < index + byteSize text := by
  induction text generalizing index found with
  | nil => exact hfound last h
  | cons d text ih =>
    have hpos := d.utf8Size_pos
    rw [byteSize_cons, ← Nat.add_assoc]
    refine ih ?_ h
    intro n hn
    split at hn
    · obtain rfl := Option.mem_some_iff.1 hn
      omega
    · have := hfound n hn
      omega

theorem lt_of_lastOffset? {c : Char} {text : List Char} {last : Nat}
    (h : lastOffset? c text = some last) : last < byteSize text := by
  have hlast := lt_of_lastOffset?_go (by simp) h
  rwa [Nat.zero_add] at hlast

namespace Stretch

open Scan

variable {options : ScanOptions} {lastParen : Option Nat} {before after raw : List Char}
  {stretches : List Stretch}

theorem Passed.stands {ps qs : List Stretch} {stretch : Stretch}
    (h : Passed options lastParen before (ps ++ stretch :: qs)) :
    Stands options lastParen (before ++ ps.flatMap Stretch.raw) (qs.flatMap Stretch.raw) stretch := by
  induction ps generalizing before with
  | nil => simpa using h.1
  | cons first ps ih => simpa using ih h.2.2

theorem Stands.plainText {stretch : Stretch} (h : Stands options lastParen before after stretch)
    (hplain : stretch.construct = none) : PlainText stretch.raw := by
  cases h with
  | plain hraw hnone =>
    intro c hc htrigger
    obtain ⟨s, t, rfl⟩ := List.append_of_mem hc
    exact ((construct?_eq_none_iff.1 (hnone s c t rfl)).1 htrigger).1
  | construct => cases hplain

/-- A trigger takes one byte, and the last `)` lies inside the text. -/
theorem applies_ruleFor (trigger : Trigger) {index : Nat}
    (hlast : ∀ last ∈ lastParen, last < index + byteSize (trigger.char :: after)) :
    (ruleFor lastParen trigger).applies index (trigger.char :: after) := by
  cases trigger with
  | closeBracket =>
    have hinside : lastParen.all (· < index + byteSize (']' :: after)) := by
      cases lastParen with
      | none => rfl
      | some last => exact decide_eq_true (hlast last rfl)
    simp only [ruleFor, Rule.applies, Rule.startsNarrow, Bool.and_eq_true, Bool.or_eq_true]
    exact ⟨rfl, .inr hinside⟩
  | _ => rfl

/-- A construct of a trigger is what the rule of that trigger reads at its byte of the text. -/
theorem Stands.readAt? {trigger : Trigger} {reading : Reading}
    (h : Stands options lastParen before after ⟨some (.owned trigger reading), raw⟩)
    (hlast : ∀ last ∈ lastParen, last < byteSize (before ++ (raw ++ after))) :
    Trigger.at? (before ++ (raw ++ after)) (byteSize before) = some trigger ∧
      (ruleFor lastParen trigger).readAt? (before ++ (raw ++ after)) (byteSize before) =
        some (⟨reading.kind, byteSize before, raw⟩, reading.warning) := by
  cases h with
  | @construct c t _ hconstruct hlen =>
    rcases construct?_eq_some hconstruct with ⟨trigger', rfl, -, heq⟩ | ⟨-, -, len, -, heq⟩
    · obtain ⟨rfl, rfl⟩ := Construct.owned.inj heq
      have hrest : trigger.char :: t ++ after = trigger.char :: (t ++ after) := rfl
      rw [byteSize_append, hrest] at hlast
      constructor
      · simp [Trigger.at?, dropBytes?_append, Trigger.ofChar?_char]
      · have htake : (trigger.char :: (t ++ after)).take
            ((ruleFor lastParen trigger).read (byteSize before) (trigger.char :: (t ++ after))).len =
              trigger.char :: t := by
          rw [← hrest]
          exact List.take_left' hlen.symm
        simp only [Rule.readAt?, hrest, dropBytes?_append, guard, if_pos (applies_ruleFor trigger hlast),
          Option.bind_eq_bind, Option.bind_some, Option.pure_def, Reading.token, htake]
    · cases heq

end Stretch

/-- Tokens lie side by side, the first one at the start of the text and the last one at its end. Each
is cut from the text at its bytes, and is plain text, an address that stands alone, or what the rule of
a trigger reads there. -/
theorem scan_tiles (options : ScanOptions) (text : List Char) :
    Token.Tile 0 (scan options text).tokens.toList (byteSize text) ∧
      ((scan options text).tokens = #[] ↔ text = []) ∧
      ∀ token ∈ (scan options text).tokens, 0 < token.byteLen ∧
        Token.cut? token.kind text token.pos token.byteLen = some token ∧
        (token.kind = .text ∧ PlainText token.raw ∨ token.kind = .bareUrl ∨
          ∃ trigger warning, Trigger.at? text token.pos = some trigger ∧
            (Scan.ruleFor (lastOffset? ')' text) trigger).readAt? text token.pos =
              some (token, warning)) := by
  obtain ⟨stretches, hpassed, htext, htokens, -⟩ := exists_stretches options text
  have htile := Token.tile_placeFrom 0 (stretches.map Stretch.piece)
  rw [Stretch.textOf_map_piece, htext, Nat.zero_add, ← htokens] at htile
  refine ⟨htile, ?_, ?_⟩
  · constructor
    · intro hempty
      rw [hempty] at htile
      by_contra htext
      exact absurd htile (Nat.ne_of_lt (byteSize_pos htext))
    · rintro rfl
      simp [scan, Scan.scanFrom, Scanned.addPlain]
  · intro token htoken
    rw [← Array.mem_toList_iff, htokens] at htoken
    obtain ⟨ps, qs, hsplit, hpos⟩ := Token.exists_of_mem_placeFrom htoken
    obtain ⟨before, rest, rfl, rfl, hrest⟩ := List.map_eq_append_iff.1 hsplit
    obtain ⟨⟨construct, raw⟩, after, rfl, hpiece, rfl⟩ := List.map_eq_cons_iff.1 hrest
    have hstands := hpassed.stands
    rw [List.nil_append] at hstands
    rw [Stretch.textOf_map_piece, Nat.zero_add] at hpos
    rw [List.flatMap_append, List.flatMap_cons] at htext
    generalize before.flatMap Stretch.raw = s at *
    generalize after.flatMap Stretch.raw = t at *
    obtain ⟨kind, pos, raw'⟩ := token
    obtain ⟨rfl, rfl⟩ : Stretch.kind ⟨construct, raw⟩ = kind ∧ raw = raw' := Prod.mk.inj hpiece
    subst hpos htext
    refine ⟨byteSize_pos hstands.raw_ne_nil, Token.cut?_append .., ?_⟩
    cases construct with
    | none => exact .inl ⟨rfl, hstands.plainText rfl⟩
    | some construct =>
      cases construct with
      | bareUrl len => exact .inr (.inl rfl)
      | owned trigger reading =>
        obtain ⟨htrigger, hread⟩ := hstands.readAt? fun last hlast => lt_of_lastOffset? hlast
        exact .inr (.inr ⟨trigger, reading.warning, htrigger, hread⟩)

/-- A link whose text has a letter of two bytes in it. -/
def accentedLink : List Char := "[ä*b*](u)".toList

/-- The address of that link, which stands after five scalar values and six bytes. -/
def accentedAddress : Token := ⟨.address, 6, "](u)".toList⟩

theorem scan_tiles_accentedLink : accentedAddress ∈ (scan {} accentedLink).tokens ∧
    Token.cut? .address accentedLink accentedAddress.pos accentedAddress.byteLen =
      some accentedAddress := by
  have htoken : accentedAddress ∈ (scan {} accentedLink).tokens := by decide +kernel
  obtain ⟨-, -, htokens⟩ := scan_tiles {} accentedLink
  obtain ⟨-, hcut, -⟩ := htokens accentedAddress htoken
  exact ⟨htoken, hcut⟩

end InlineMarkup
