import InlineMarkup.Proofs.Grammar

/-! Recognition: where addresses may stand alone, all that do become tokens, and nothing else changes. -/

namespace InlineMarkup

open Reading

/-- Whether `raw` between `before` and `after` is an address that stands alone: it does not continue a word,
and all the characters after its scheme that can belong to it do. -/
structure LoneUrl (before raw after : List Char) : Prop where
  start : ¬before.getLast?.any Unicode.isAlphanumeric
  shape : ∃ scheme target, (scheme = "http://".toList ∨ scheme = "https://".toList) ∧ target ≠ [] ∧
    (∀ c ∈ target, isUrlChar c) ∧ raw = scheme ++ target
  stop : ¬after.head?.any isUrlChar

variable {options : ScanOptions} {lastParen : Option Nat} {before raw after s t : List Char}

theorem Lexeme.loneUrl (h : Lexeme options before .bareUrl raw after) : LoneUrl before raw after := by
  generalize hkind : TokenKind.bareUrl = kind at h
  cases h with
  | bareUrl hon hprev hscheme htarget hchars hnext =>
    exact ⟨hprev, ⟨_, _, hscheme, htarget, hchars, rfl⟩, hnext⟩
  | code => split at hkind <;> cases hkind
  | _ => cases hkind

/-- An address starts with the first letter of its scheme. -/
theorem UrlStarts.head_mem (h : UrlStarts options before (t ++ after)) (ht : t ≠ []) : 'h' ∈ t := by
  obtain ⟨-, -, scheme, c, u, hscheme, hsplit, -⟩ := h
  obtain ⟨d, t, rfl⟩ := List.exists_cons_of_ne_nil ht
  rcases hscheme with rfl | rfl
  · obtain ⟨rfl, -⟩ := List.cons_eq_cons.1 hsplit
    exact List.mem_cons_self
  · obtain ⟨rfl, -⟩ := List.cons_eq_cons.1 hsplit
    exact List.mem_cons_self

/-- No address that stands alone starts in a text. -/
theorem Lexeme.not_urlStarts (h : Lexeme options before .text raw after) (hraw : raw = s ++ t)
    (ht : t ≠ []) : ¬UrlStarts options (before ++ s) (t ++ after) := by
  have hfree (hmem : 'h' ∉ raw) : ¬UrlStarts options (before ++ s) (t ++ after) := by
    intro hstarts
    exact hmem (hraw ▸ List.mem_append_right s (hstarts.head_mem ht))
  generalize hkind : TokenKind.text = kind at h
  cases h with
  | plain _ _ hurls => exact hurls s t hraw ht
  | ticks => exact hfree (by simp)
  | code => split at hkind <;> cases hkind
  | loneTilde | loneBang | loneBracket | openAddress | lastBracket | lastBackslash =>
    exact hfree (by decide)
  | _ => cases hkind

/-! ### Without addresses -/

namespace Stretch

variable {stretch : Stretch} {stretches : List Stretch}

/-- What is passed over and is no address is passed over as well where addresses do not stand alone. -/
theorem Stands.plainly (h : Stands options lastParen before after stretch)
    (hkind : stretch.kind ≠ .bareUrl) : Stands {} lastParen before after stretch := by
  cases h with
  | plain hraw hnone =>
    refine .plain hraw fun s c t hsplit => Scan.construct?_eq_none_iff.2 ⟨?_, nofun⟩
    exact (Scan.construct?_eq_none_iff.1 (hnone s c t hsplit)).1
  | construct hconstruct hlen =>
    rcases Scan.construct?_eq_some hconstruct with ⟨trigger, rfl, hallowed, rfl⟩ | ⟨-, -, len, -, rfl⟩
    · exact .construct (Scan.construct?_trigger trigger hallowed) hlen
    · exact absurd rfl hkind

theorem Passed.plainly (h : Passed options lastParen before stretches)
    (hkinds : ∀ stretch ∈ stretches, stretch.kind ≠ .bareUrl) :
    Passed {} lastParen before stretches := by
  induction stretches generalizing before with
  | nil => trivial
  | cons stretch stretches ih =>
    obtain ⟨hstands, hnext, hmore⟩ := h
    obtain ⟨hkind, hkinds⟩ := List.forall_mem_cons.1 hkinds
    exact ⟨hstands.plainly hkind, hnext, ih hmore hkinds⟩

end Stretch

theorem Scanned.ext_toList {a b : Scanned} (htokens : a.tokens.toList = b.tokens.toList)
    (hfindings : a.findings.toList = b.findings.toList) : a = b := by
  cases a
  cases b
  rw [Scanned.mk.injEq]
  exact ⟨Array.toList_inj.1 htokens, Array.toList_inj.1 hfindings⟩

/-- The kinds of the tokens are those of the stretches. -/
theorem Token.kind_ne_of_placeFrom {pos : Nat} {stretches : List Stretch} {kind : TokenKind}
    (h : ∀ token ∈ placeFrom pos (stretches.map Stretch.piece), token.kind ≠ kind) :
    ∀ stretch ∈ stretches, stretch.kind ≠ kind := by
  intro stretch hmem hkind
  have hpiece : stretch.piece ∈ (placeFrom pos (stretches.map Stretch.piece)).map piece := by
    rw [map_piece_placeFrom]
    exact List.mem_map_of_mem hmem
  obtain ⟨token, htoken, heq⟩ := List.mem_map.1 hpiece
  exact h token htoken ((congrArg Prod.fst heq).trans hkind)

/-- Where addresses may stand alone, each token of one is an address that does, no text has one in it, and
a text without one is scanned as it is where addresses do not stand alone. -/
theorem scan_bareUrls (text : List Char) :
    (∀ token ∈ (scan ⟨true⟩ text).tokens, ∃ before after, text = before ++ (token.raw ++ after) ∧
      byteSize before = token.pos ∧
      (token.kind = .bareUrl → LoneUrl before token.raw after) ∧
      (token.kind = .text → ∀ s t, token.raw = s ++ t → t ≠ [] →
        ¬UrlStarts ⟨true⟩ (before ++ s) (t ++ after))) ∧
    ((∀ token ∈ (scan ⟨true⟩ text).tokens, token.kind ≠ .bareUrl) →
      scan ⟨true⟩ text = scan {} text) := by
  obtain ⟨stretches, hpassed, htext, htokens, hfindings⟩ := exists_stretches ⟨true⟩ text
  constructor
  · intro token htoken
    rw [← Array.mem_toList_iff, htokens] at htoken
    obtain ⟨ps, qs, hsplit, hpos⟩ := Token.exists_of_mem_placeFrom htoken
    have hlexed := hpassed.lexed htext
    have hlexeme := hlexed.lexeme ps token.kind token.raw qs hsplit
    refine ⟨textOf ps, textOf qs, ?_, by rw [hpos, Nat.zero_add], fun hkind => ?_, fun hkind s t => ?_⟩
    · rw [← hlexed.covers, hsplit, textOf_append, textOf_cons]
      rfl
    · exact (hkind ▸ hlexeme).loneUrl
    · exact (hkind ▸ hlexeme).not_urlStarts
  · intro hkinds
    obtain ⟨others, hothers, htext', htokens', hfindings'⟩ := exists_stretches {} text
    have hplaced : ∀ token ∈ Token.placeFrom 0 (stretches.map Stretch.piece),
        token.kind ≠ .bareUrl := by
      intro token htoken
      rw [← htokens, Array.mem_toList_iff] at htoken
      exact hkinds token htoken
    have hplain := hpassed.plainly (Token.kind_ne_of_placeFrom hplaced)
    obtain rfl := hplain.unique hothers (htext.trans htext'.symm)
    exact Scanned.ext_toList (htokens.trans htokens'.symm) (hfindings.trans hfindings'.symm)

/-- An address that continues a word and two that stand alone, one of them after a star and with one in
it. -/
def loneUrls : List Char := "xhttp://a *http://b_!* https://c".toList

theorem scan_bareUrls_loneUrls :
    ((scan ⟨true⟩ loneUrls).tokens.toList.filter (·.kind == .bareUrl)).map (·.raw) =
      ["http://b_!*".toList, "https://c".toList] ∧
    (∀ token ∈ (scan ⟨true⟩ loneUrls).tokens, token.kind = .bareUrl →
      ∃ before after, loneUrls = before ++ (token.raw ++ after) ∧ LoneUrl before token.raw after) ∧
    scan ⟨true⟩ (loneUrls.take 9) = scan {} (loneUrls.take 9) := by
  refine ⟨by decide +kernel, fun token htoken hkind => ?_, (scan_bareUrls _).2 (by decide +kernel)⟩
  obtain ⟨before, after, hsplit, -, hlone, -⟩ := (scan_bareUrls loneUrls).1 token htoken
  exact ⟨before, after, hsplit, hlone hkind⟩

end InlineMarkup
