import InlineMarkup.Proofs.Faults
import InlineMarkup.Proofs.Grammar
import InlineMarkup.Proofs.Prefixes

/-! Joining: the tokens of two texts side by side are those of the first one and those of the second
one, where the first one ends in a white space and there is nothing to say about it. -/

namespace InlineMarkup

open Backtick Reading

variable {options : ScanOptions} {lastParen : Option Nat} {before after : List Char}

namespace Token

/-- Whether the token is text in which nothing starts. -/
def isPlain (token : Token) : Bool := token.kind == .text && !token.isFaulty

/-- The tokens of two texts side by side. Plain text at the end of the first one and plain text at the
start of the second one are one token. -/
def join (tokens others : List Token) : List Token :=
  match tokens.getLast?, others with
  | some last, first :: rest =>
    if last.isPlain && first.isPlain then
      tokens.dropLast ++ ⟨.text, last.pos, last.raw ++ first.raw⟩ :: rest
    else tokens ++ others
  | _, _ => tokens ++ others

variable {tokens others : List Token} {last first : Token}

theorem join_of_isPlain (hlast : last.isPlain) (hfirst : first.isPlain) :
    join (tokens ++ [last]) (first :: others) =
      tokens ++ ⟨.text, last.pos, last.raw ++ first.raw⟩ :: others := by
  simp [join, hlast, hfirst]

theorem join_of_not_isPlain (h : ∀ first ∈ others.head?, ¬first.isPlain) :
    join tokens others = tokens ++ others := by
  unfold join
  split
  · rename_i first rest _
    have hfirst : first.isPlain = false := by simpa using h first rfl
    rw [hfirst, Bool.and_false, if_neg Bool.false_ne_true]
  · rfl

theorem nil_join : join [] others = others := rfl

end Token

/-- Text that a scan does not complain about is plain. -/
theorem Lexeme.plainText {raw : List Char} (h : Lexeme options before .text raw after) (pos : Nat)
    (hsound : ¬(Token.mk .text pos raw).isFaulty) : PlainText raw := by
  generalize hkind : TokenKind.text = kind at h
  cases h with
  | plain hraw htriggers =>
    intro c hc htrigger
    obtain ⟨s, t, rfl⟩ := List.append_of_mem hc
    exact (htriggers s c t rfl htrigger).1
  | code => split at hkind <;> cases hkind
  | @ticks n _ hn =>
    obtain ⟨n, rfl⟩ := Nat.exists_eq_succ_of_ne_zero hn
    exact absurd rfl hsound
  | loneTilde | loneBang | loneBracket | openAddress | lastBracket | lastBackslash =>
    exact absurd rfl hsound
  | _ => cases hkind

/-- What ends in a white space is text or complained about. -/
theorem Lexeme.kind_eq_text {kind : TokenKind} {pos : Nat} {raw : List Char}
    (h : Lexeme options before kind raw after) (hspace : raw.getLast?.all Unicode.isWhiteSpace)
    (hsound : ¬(Token.mk kind pos raw).isFaulty) : kind = .text := by
  cases h with
  | escape c =>
    have hc : isTrigger c := by simpa [Token.isFaulty] using hsound
    exact absurd hc (Scan.not_isTrigger_of_isWhiteSpace hspace)
  | address _ hurl =>
    rw [List.getLast?_append_of_ne_nil _ (List.cons_ne_nil _ _)] at hspace
    exact absurd hspace (by decide)
  | @code fence content _ hfence =>
    obtain ⟨n, rfl⟩ := Nat.exists_eq_succ_of_ne_zero hfence
    rw [Markdown.fenced, List.replicate_succ', ← List.append_assoc, List.getLast?_concat] at hspace
    exact absurd hspace (by decide)
  | @openCode fence content hfence hcontent hhead hfree =>
    have hclosed : runLength content.reverse = fence := by
      simpa only [Token.isFaulty, runLength_replicate_append hhead,
        List.drop_left' (List.length_replicate ..), bne_iff_ne, ne_eq, Decidable.not_not] using hsound
    exact absurd (hclosed ▸ hasRun_runLength_reverse content) hfree
  | @bareUrl scheme target _ hon hprev hscheme htarget hchars =>
    obtain ⟨u, d, rfl⟩ := (List.eq_nil_or_concat target).resolve_left htarget
    rw [List.concat_eq_append, ← List.append_assoc, List.getLast?_concat] at hspace
    exact absurd (hchars d (by simp)) (not_isUrlChar_of_isWhiteSpace hspace)
  | plain | loneTilde | loneBang | loneBracket | openAddress | lastBracket | lastBackslash | ticks => rfl
  | _ => exact absurd hspace (by decide)

namespace Stretch

variable {stretch : Stretch} {stretches others : List Stretch} {a b x y : List Char}

theorem findingsFrom_append (pos : Nat) (ss ts : List Stretch) : findingsFrom pos (ss ++ ts) =
    findingsFrom pos ss ++ findingsFrom (pos + byteSize (ss.flatMap raw)) ts := by
  induction ss generalizing pos with
  | nil => rfl
  | cons stretch ss ih =>
    rw [List.cons_append, findingsFrom, ih, findingsFrom, List.flatMap_cons, byteSize_append,
      List.append_assoc, Nat.add_assoc]

theorem Stands.isPlain_iff (h : Stands options lastParen before after stretch)
    (hcovers : Covers lastParen (byteSize before) (stretch.raw ++ after)) (pos : Nat) :
    (stretch.token pos).isPlain ↔ stretch.construct = none := by
  rw [Token.isPlain, Bool.and_eq_true, beq_iff_eq, Bool.not_eq_true']
  constructor
  · rintro ⟨hkind, hsound⟩
    have hlexeme := h.lexeme hcovers
    rw [show stretch.kind = .text from hkind] at hlexeme
    have hkind : stretch.kind = .text := hkind
    refine h.construct_eq_none hkind (hlexeme.plainText pos (ne_true_of_eq_false ?_))
    rwa [← hkind]
  · intro hnone
    have hkind : stretch.kind = .text := by rw [kind, hnone]; rfl
    refine ⟨hkind, ?_⟩
    rw [token, hkind]
    exact Bool.eq_false_iff.2 (not_isFaulty_of_plainText (h.plainText hnone))

/-- Of what is passed over without a finding before a white space, the last stretch is plain. -/
theorem Passed.last_eq_none (h : Passed options (lastOffset? ')' a) [] (stretches ++ [stretch]))
    (htext : (stretches ++ [stretch]).flatMap raw = a) (hspace : a.getLast?.all Unicode.isWhiteSpace)
    (hclean : findingsFrom 0 (stretches ++ [stretch]) = []) : stretch.construct = none := by
  have hstands := h.stands
  rw [List.nil_append] at hstands
  have hsplit : a = stretches.flatMap raw ++ (stretch.raw ++ [].flatMap raw) := by simp [← htext]
  have hcovers := covers_rest hsplit
  have hfinding : stretch.construct.bind
      (·.finding? (byteSize (stretches.flatMap raw))) = none := by
    rw [findingsFrom_append, List.append_eq_nil_iff] at hclean
    simpa [findingsFrom] using hclean.2
  have hreports := hstands.reports hcovers
  rw [hfinding] at hreports
  have hsound : ¬(stretch.token (byteSize (stretches.flatMap raw))).isFaulty := by
    intro hfaulty
    rw [List.filter_cons_of_pos hfaulty] at hreports
    cases hreports
  have hlast : stretch.raw.getLast?.all Unicode.isWhiteSpace := by
    rw [hsplit, List.flatMap_nil, List.append_nil] at hspace
    exact all_getLast?_of_append hspace
  have hkind := (hstands.lexeme hcovers).kind_eq_text hlast hsound
  refine (hstands.isPlain_iff hcovers (byteSize (stretches.flatMap raw))).1 ?_
  rw [Token.isPlain, Bool.and_eq_true, beq_iff_eq, Bool.not_eq_true']
  exact ⟨hkind, Bool.eq_false_iff.2 hsound⟩

/-- Plain text at the end of one text and at the start of another one is passed over at once. -/
theorem Passed.join (h : Passed options (lastOffset? ')' a) [] (stretches ++ [⟨none, x⟩]))
    (htext : a = stretches.flatMap raw ++ x) (hspace : a.getLast?.all Unicode.isWhiteSpace)
    (hclean : findingsFrom 0 (stretches ++ [⟨none, x⟩]) = [])
    (hothers : Passed options (lastOffset? ')' (a ++ b)) a (⟨none, y⟩ :: others))
    (hrest : y ++ others.flatMap raw = b) :
    Passed options (lastOffset? ')' (a ++ b)) [] (stretches ++ ⟨none, x ++ y⟩ :: others) := by
  have hcovers := covers_lastOffset? a
  have hcovers' := covers_lastOffset? (a ++ b)
  have hwhole : (stretches ++ [Stretch.mk none x]).flatMap raw = a := by simp [htext]
  have hx : Stands options (lastOffset? ')' (a ++ b)) (stretches.flatMap raw)
      (y ++ others.flatMap raw) ⟨none, x⟩ := by
    rw [hrest]
    refine Stands.append h.stands ?_ (covers_rest ?_) (covers_rest ?_) rfl
    · rw [htext] at hspace
      simpa using all_getLast?_of_append hspace
    · simp [htext]
    · simp [htext]
  have hts : Passed options (lastOffset? ')' (a ++ b)) (stretches.flatMap raw)
      (⟨none, x ++ y⟩ :: others) := by
    obtain ⟨hy, hnext, hmore⟩ := hothers
    rw [htext] at hx hy hmore ⊢
    rw [List.append_assoc _ x y] at hmore
    exact ⟨hx.join hy, hnext, hmore⟩
  have hcover : (Stretch.mk none (x ++ y) :: others).flatMap raw =
      [Stretch.mk none x].flatMap raw ++ b := by simp [← hrest]
  refine Passed.extend stretches [⟨none, x⟩] h ?_ ?_ ?_ hclean hts hcover ?_
  · rwa [hwhole]
  · rwa [hwhole]
  · rwa [hwhole]
  · intro last hmem hplain
    obtain ⟨ps, rfl⟩ := List.getLast?_eq_some_iff.1 hmem
    rw [List.append_assoc] at h
    exact absurd rfl (h.next_of_plain hplain)

/-- Two texts side by side are passed over as each of them by itself, but for plain text that meets. -/
theorem Passed.exists_join (h : Passed options (lastOffset? ')' a) [] stretches)
    (htext : stretches.flatMap raw = a) (hspace : a.getLast?.all Unicode.isWhiteSpace)
    (hclean : findingsFrom 0 stretches = [])
    (hothers : Passed options (lastOffset? ')' (a ++ b)) a others)
    (hrest : others.flatMap raw = b) :
    ∃ joined, Passed options (lastOffset? ')' (a ++ b)) [] joined ∧ joined.flatMap raw = a ++ b ∧
      Token.placeFrom 0 (joined.map piece) = Token.join (Token.placeFrom 0 (stretches.map piece))
        (Token.placeFrom (byteSize a) (others.map piece)) ∧
      findingsFrom 0 joined = findingsFrom (byteSize a) others := by
  have hcovers := covers_lastOffset? a
  have hcovers' := covers_lastOffset? (a ++ b)
  by_cases hfirst : ∀ next ∈ others.head?, next.construct ≠ none
  · refine ⟨stretches ++ others, ?_, by simp [htext, hrest], ?_, ?_⟩
    · refine Passed.extend stretches [] (by rwa [List.append_nil]) ?_ ?_ ?_ ?_ (by rwa [htext]) hrest
        fun _ _ _ => hfirst
      all_goals rw [List.append_nil]
      · rwa [htext]
      · rwa [htext]
      · rwa [htext]
      · exact hclean
    · rw [List.map_append, Token.placeFrom_append, textOf_map_piece, htext, Nat.zero_add,
        Token.join_of_not_isPlain]
      cases others with
      | nil => simp [Token.placeFrom]
      | cons next others =>
        intro first hmem hplain
        obtain rfl : next.token (byteSize a) = first := Option.some.inj hmem
        refine hfirst next rfl ((hothers.1.isPlain_iff (covers_rest ?_) (byteSize a)).1 hplain)
        rw [← hrest, List.flatMap_cons]
    · rw [findingsFrom_append, hclean, htext, Nat.zero_add, List.nil_append]
  · simp only [not_forall, Decidable.not_not] at hfirst
    obtain ⟨⟨_, y⟩, hmem, rfl⟩ := hfirst
    obtain ⟨others, rfl⟩ := List.head?_eq_some_iff.1 hmem
    rcases List.eq_nil_or_concat stretches with rfl | ⟨stretches, ⟨construct, x⟩, rfl⟩
    · obtain rfl : [] = a := htext
      exact ⟨_, hothers, hrest, (Token.nil_join).symm, rfl⟩
    · rw [List.concat_eq_append] at *
      obtain rfl : construct = none := h.last_eq_none htext hspace hclean
      have hsplit : a = stretches.flatMap raw ++ x := by simp [← htext]
      have hsize : byteSize a = byteSize (stretches.flatMap raw) + byteSize x := by
        rw [hsplit, byteSize_append]
      refine ⟨_, h.join hsplit hspace hclean hothers hrest, by simp [hsplit, ← hrest], ?_, ?_⟩
      · have hlast : (Token.mk .text (byteSize (stretches.flatMap raw)) x).isPlain :=
          (h.stands.isPlain_iff (covers_rest (by simp [hsplit])) _).2 rfl
        have hfirst : (Token.mk .text (byteSize a) y).isPlain :=
          (hothers.1.isPlain_iff (covers_rest (by simp [← hrest])) _).2 rfl
        simp only [List.map_append, List.map_cons, List.map_nil, Token.placeFrom_append,
          textOf_map_piece, Nat.zero_add]
        refine Eq.trans ?_ (Token.join_of_isPlain hlast hfirst).symm
        have hstop : byteSize (stretches.flatMap raw) + byteSize (x ++ y) =
            byteSize a + byteSize y := by
          rw [hsize, byteSize_append, Nat.add_assoc]
        exact congrArg (fun start => Token.placeFrom 0 (stretches.map piece) ++
          ⟨.text, byteSize (stretches.flatMap raw), x ++ y⟩ ::
            Token.placeFrom start (others.map piece)) hstop
      · rw [findingsFrom_append] at hclean ⊢
        rw [(List.append_eq_nil_iff.1 hclean).1, Nat.zero_add, List.nil_append, findingsFrom,
          findingsFrom, byteSize_append, hsize, Nat.add_assoc]
        rfl

/-- The scan of a text that starts with one that ends in a white space, and about which there is nothing
to say. -/
theorem scan_joined (hspace : a.getLast?.all Unicode.isWhiteSpace)
    (hclean : (scan options a).findings = #[]) :
    (scan options (a ++ b)).tokens.toList = Token.join (scan options a).tokens.toList
        ((scan options b).tokens.toList.map (Token.shift (byteSize a))) ∧
      (scan options (a ++ b)).findings.toList =
        (scan options b).findings.toList.map (Finding.shift (byteSize a)) := by
  obtain ⟨stretches, hpassed, htext, htokens, hfindings⟩ := exists_stretches options a
  obtain ⟨others, hothers, hrest, htokens', hfindings'⟩ := exists_stretches options b
  obtain ⟨all, hall, hwhole, htokens'', hfindings''⟩ := exists_stretches options (a ++ b)
  have hwindow := sameWindow_append (t := b) fun last (hlast : last ∈ lastOffset? ')' a) =>
    lt_of_lastOffset? hlast
  have hshift := hothers.shift hwindow hspace
  rw [List.append_nil] at hshift
  have hnone : findingsFrom 0 stretches = [] := by rw [← hfindings, hclean]
  obtain ⟨joined, hjoined, hcovered, hplaced, hfound⟩ :=
    hpassed.exists_join htext hspace hnone hshift ((flatMap_raw_shift _ _).trans hrest)
  obtain rfl := hall.unique hjoined (hwhole.trans hcovered.symm)
  constructor
  · rw [htokens'', hplaced, htokens, htokens', map_piece_shift, ← Token.placeFrom_shift]
    rfl
  · rw [hfindings'', hfound, hfindings', ← findingsFrom_shift]
    rfl

end Stretch

/-- The last token of a text that ends in a white space, and about which there is nothing to say, is
plain text. -/
theorem exists_last_text {a : List Char} (hne : a ≠ []) (hspace : a.getLast?.all Unicode.isWhiteSpace)
    (hclean : (scan options a).findings = #[]) :
    ∃ ps x, (scan options a).pieces = ps ++ [(.text, x)] ∧ x ≠ [] ∧
      x.getLast?.all Unicode.isWhiteSpace := by
  obtain ⟨stretches, hpassed, htext, htokens, hfindings⟩ := exists_stretches options a
  rw [hclean] at hfindings
  have hpieces : (scan options a).pieces = stretches.map Stretch.piece := by
    rw [Scanned.pieces, htokens, Token.map_piece_placeFrom]
  rcases List.eq_nil_or_concat stretches with rfl | ⟨stretches, ⟨construct, x⟩, rfl⟩
  · exact absurd htext.symm hne
  · rw [List.concat_eq_append] at *
    obtain rfl : construct = none := hpassed.last_eq_none htext hspace hfindings.symm
    refine ⟨stretches.map Stretch.piece, x, by rw [hpieces, List.map_append]; rfl,
      hpassed.stands.raw_ne_nil, ?_⟩
    rw [← htext, List.flatMap_append, List.flatMap_singleton] at hspace
    exact Stretch.all_getLast?_of_append hspace

end InlineMarkup
