import InlineMarkup.Document.Markdown
import InlineMarkup.Parse
import InlineMarkup.Proofs.Backticks

/-! Cutting: how the tokens of a text fit together. -/

namespace InlineMarkup

/-- Whether a run of `fence` backticks on either side of the content makes code of it. -/
structure Backtick.Encloses (fence : Nat) (content : List Char) : Prop where
  fence_ne_zero : fence ≠ 0
  content_ne_nil : content ≠ []
  head : content.head? ≠ some '`'
  last : content.getLast? ≠ some '`'
  free : closing? fence content = none

open Backtick

/-- Whether a piece of a text is what a token of the kind covers, between the scalar values `prev`
and `next`. What is wrong with the piece is noted. -/
inductive Fits (options : ScanOptions) (noted : TokenKind → Issue → Prop) (prev : Option Char) :
    TokenKind → List Char → Option Char → Prop
  | bold (next : Option Char) : Fits options noted prev .bold ['*', '*'] next
  | italic {next : Option Char} (hnext : next ≠ some '*') :
      Fits options noted prev .italic ['*'] next
  | strikethrough (next : Option Char) : Fits options noted prev .strikethrough ['~', '~'] next
  | underline {next : Option Char} (hallowed : Reading.underlineAllowed prev next) :
      Fits options noted prev .underline ['_'] next
  | escape {c : Char} (next : Option Char) (huse : isTrigger c ∨ noted .escape .redundantEscape) :
      Fits options noted prev .escape ['\\', c] next
  | linkStart {next : Option Char} (hnext : next ≠ none) :
      Fits options noted prev .linkStart ['['] next
  | imageStart (next : Option Char) : Fits options noted prev .imageStart ['!', '['] next
  | address {url : List Char} (next : Option Char) (hurl : ')' ∉ url)
      (hempty : url ≠ [] ∨ noted .address .malformedLink) :
      Fits options noted prev .address ([']', '('] ++ url ++ [')']) next
  | code {kind : TokenKind} {fence : Nat} {content : List Char} {next : Option Char}
      (hkind : kind = .codeInline ∨ kind = .codeBlock) (hcode : Encloses fence content)
      (hnext : next ≠ some '`') : Fits options noted prev kind (Markdown.fenced fence content) next
  | unclosed {fence : Nat} {content : List Char} (hfence : fence ≠ 0) (hcontent : content ≠ [])
      (hhead : content.head? ≠ some '`') (hfree : closing? fence content = none)
      (hnoted : noted .codeBlock .unclosedTag) :
      Fits options noted prev .codeBlock (List.replicate fence '`' ++ content) none
  | bareUrl {raw : List Char} (next : Option Char) (hon : options.bareUrls) (hraw : raw ≠ []) :
      Fits options noted prev .bareUrl raw next
  | text {raw : List Char} (next : Option Char) (hraw : raw ≠ []) :
      Fits options noted prev .text raw next

/-- The text that pieces cover. -/
def textOf (pieces : List (TokenKind × List Char)) : List Char := pieces.flatMap (·.2)

@[simp] theorem textOf_nil : textOf [] = [] := rfl

@[simp] theorem textOf_cons (piece : TokenKind × List Char)
    (pieces : List (TokenKind × List Char)) :
    textOf (piece :: pieces) = piece.2 ++ textOf pieces := List.flatMap_cons

@[simp] theorem textOf_append (ps qs : List (TokenKind × List Char)) :
    textOf (ps ++ qs) = textOf ps ++ textOf qs := List.flatMap_append

theorem getLast?_or {s : List Char} (hs : s ≠ []) (prev : Option Char) :
    s.getLast?.or prev = s.getLast? := by
  cases hlast : s.getLast? with
  | none => exact absurd (List.getLast?_eq_none_iff.1 hlast) hs
  | some c => rfl

/-- A text from its first character on is split after what has been read. -/
theorem split_at_len {c : Char} {after raw rest : List Char} {len : Nat}
    (hsplit : c :: after = raw ++ rest) (hlen : len = raw.length) (hraw : raw ≠ []) :
    (c :: after).take len = raw ∧ after.drop (len - 1) = rest := by
  have hpos := List.length_pos_iff.2 hraw
  have hdrop : (c :: after).drop (len - 1 + 1) = rest := by
    rw [hsplit, List.drop_left' (by omega)]
  exact ⟨by rw [hsplit, hlen, List.take_left' rfl], hdrop⟩

/-- Whether pieces cover a text between `prev` and `next`, each of them as it should. -/
def Cut (options : ScanOptions) (noted : TokenKind → Issue → Prop) :
    Option Char → List (TokenKind × List Char) → Option Char → Prop
  | _, [], _ => True
  | prev, (kind, raw) :: pieces, next =>
    Fits options noted prev kind raw ((textOf pieces).head?.or next) ∧
      Cut options noted raw.getLast? pieces next

variable {options : ScanOptions} {noted : TokenKind → Issue → Prop} {prev next : Option Char}
  {kind : TokenKind} {raw rest : List Char} {index len : Nat}

theorem Fits.raw_ne_nil (h : Fits options noted prev kind raw next) : raw ≠ [] := by
  cases h with
  | bold | italic | strikethrough | underline | escape | linkStart | imageStart | address => simp
  | code hkind hcode hnext => simp [Markdown.fenced, hcode.content_ne_nil]
  | unclosed hfence hcontent hhead hfree hnoted => simp [hcontent]
  | bareUrl _ _ hraw | text _ hraw => exact hraw

theorem Fits.kind_ne_bareUrl (h : Fits {} noted prev kind raw next) : kind ≠ .bareUrl := by
  rintro rfl
  cases h with
  | code hkind => rcases hkind with hkind | hkind <;> cases hkind
  | bareUrl _ hon => exact Bool.false_ne_true hon

theorem cut_append {ps qs : List (TokenKind × List Char)} :
    Cut options noted prev (ps ++ qs) next ↔ Cut options noted prev ps ((textOf qs).head?.or next) ∧
      Cut options noted ((textOf ps).getLast?.or prev) qs next := by
  induction ps generalizing prev with
  | nil => simp [Cut]
  | cons piece ps ih =>
    obtain ⟨kind, raw⟩ := piece
    simp only [List.cons_append, Cut, ih, textOf_append, textOf_cons, List.head?_append,
      List.getLast?_append, Option.or_assoc, and_assoc]
    refine and_congr_right fun hfits => and_congr_right ?_
    intro _
    rw [getLast?_or hfits.raw_ne_nil]

theorem Cut.exists_fits {pieces : List (TokenKind × List Char)}
    (h : Cut options noted prev pieces next) :
    ∀ piece ∈ pieces, ∃ before after, Fits options noted before piece.1 piece.2 after := by
  induction pieces generalizing prev with
  | nil => simp
  | cons piece pieces ih => exact List.forall_mem_cons.2 ⟨⟨_, _, h.1⟩, ih h.2⟩

/-! ### What a rule reads -/

namespace Reading

variable {c : Char} {after : List Char} {reading : Reading} {warning : Warning}

/-- Whether the warning of a reading is noted. -/
def IsNoted (reading : Reading) (noted : TokenKind → Issue → Prop) : Prop :=
  ∀ warning ∈ reading.warning, noted warning.relatedKind warning.issue

/-- Whether a reading at a text cuts off a piece that fits. -/
def Cuts (reading : Reading) (options : ScanOptions) (noted : TokenKind → Issue → Prop)
    (prev : Option Char) (rest : List Char) : Prop :=
  ∃ raw after, rest = raw ++ after ∧ reading.len = raw.length ∧
    Fits options noted prev reading.kind raw after.head?

theorem cuts_degraded (hlen : 0 < len) (hle : len ≤ rest.length) (warning : Warning) :
    (degraded len warning).Cuts options noted prev rest := by
  refine ⟨rest.take len, rest.drop len, (List.take_append_drop ..).symm, ?_, .text _ ?_⟩
  · exact (List.length_take_of_le hle).symm
  · rw [ne_eq, ← List.length_eq_zero_iff, List.length_take_of_le hle]
    exact Nat.ne_of_gt hlen

theorem cuts_star (after : List Char) :
    (star ('*' :: after)).Cuts options noted prev ('*' :: after) := by
  unfold star
  split
  · rename_i rest heq
    obtain ⟨_, rfl⟩ := List.cons_eq_cons.1 heq
    exact ⟨['*', '*'], rest, rfl, rfl, .bold _⟩
  · rename_i hne
    refine ⟨['*'], after, rfl, rfl, .italic ?_⟩
    intro hnext
    cases after with
    | nil => simp at hnext
    | cons d after =>
      obtain rfl : d = '*' := by simpa using hnext
      exact hne '*' after rfl

theorem cuts_tilde (after : List Char) :
    (tilde index ('~' :: after)).Cuts options noted prev ('~' :: after) := by
  unfold tilde
  split
  · rename_i rest heq
    obtain ⟨_, rfl⟩ := List.cons_eq_cons.1 heq
    exact ⟨['~', '~'], rest, rfl, rfl, .strikethrough _⟩
  · exact cuts_degraded Nat.zero_lt_one (by simp) _

theorem cuts_bang (after : List Char) :
    (bang index ('!' :: after)).Cuts options noted prev ('!' :: after) := by
  unfold bang
  split
  · rename_i rest heq
    obtain ⟨_, rfl⟩ := List.cons_eq_cons.1 heq
    exact ⟨['!', '['], rest, rfl, rfl, .imageStart _⟩
  · exact cuts_degraded Nat.zero_lt_one (by simp) _

theorem cuts_openBracket (after : List Char) :
    (openBracket index ('[' :: after)).Cuts options noted prev ('[' :: after) := by
  unfold openBracket
  split
  · rename_i d rest heq
    obtain ⟨_, rfl⟩ := List.cons_eq_cons.1 heq
    exact ⟨['['], d :: rest, rfl, rfl, .linkStart (by simp)⟩
  · exact cuts_degraded Nat.zero_lt_one (by simp) _

theorem cuts_escape (after : List Char)
    (hnoted : (escape index ('\\' :: after)).IsNoted noted) :
    (escape index ('\\' :: after)).Cuts options noted prev ('\\' :: after) := by
  cases after with
  | nil => exact cuts_degraded Nat.zero_lt_one (by simp) _
  | cons d after =>
    refine ⟨['\\', d], after, rfl, ?_, ?_⟩
    · simp only [escape]
      split <;> rfl
    · have hkind : (escape index ('\\' :: d :: after)).kind = .escape := by
        simp only [escape]
        split <;> rfl
      rw [hkind]
      refine .escape _ (Decidable.or_iff_not_imp_left.2 ?_)
      intro huse
      simp only [escape, if_neg huse] at hnoted
      exact hnoted _ rfl

theorem cuts_code (after : List Char) (hnoted : (code index ('`' :: after)).IsNoted noted) :
    (code index ('`' :: after)).Cuts options noted prev ('`' :: after) := by
  obtain ⟨body, hrest, hbody⟩ := exists_run ('`' :: after)
  generalize hfence : runLength ('`' :: after) = fence at hrest
  have hpos : fence ≠ 0 := by
    rw [← hfence]
    simp [runLength]
  have hdrop : ('`' :: after).drop fence = body := by
    rw [hrest, List.drop_left' (List.length_replicate ..)]
  have hlen : ('`' :: after).length = fence + body.length := by
    rw [hrest, List.length_append, List.length_replicate]
  simp only [code, hfence, hdrop] at hnoted ⊢
  by_cases hempty : body.isEmpty
  · rw [if_pos hempty]
    exact cuts_degraded (Nat.pos_of_ne_zero hpos) (by omega) _
  · rw [if_neg hempty] at hnoted ⊢
    cases hclose : closing? fence body with
    | some len =>
      obtain ⟨content, rest, hsplit, rfl, hne, hlast, hnext, hfree⟩ :=
        exists_of_closing?_eq_some hpos hbody hclose
      have hhead : content.head? ≠ some '`' := by
        cases content with
        | nil => exact absurd rfl hne
        | cons d content =>
          rw [hsplit] at hbody
          simpa using hbody
      refine ⟨Markdown.fenced fence content, rest, ?_, ?_, ?_⟩
      · rw [hrest, hsplit, Markdown.fenced, List.append_assoc, List.append_assoc]
      · simp only [clean, Markdown.fenced, List.length_append, List.length_replicate]
        omega
      · refine .code ?_ ⟨hpos, hne, hhead, hlast, hfree⟩ hnext
        simp only [clean]
        split <;> simp
    | none =>
      simp only [hclose] at hnoted ⊢
      split
      · exact cuts_degraded (Nat.pos_of_ne_zero hpos) (by omega) _
      · rename_i hlong
        rw [if_neg hlong] at hnoted
        refine ⟨'`' :: after, [], (List.append_nil _).symm, rfl, ?_⟩
        rw [hrest]
        exact .unclosed hpos (by simpa using hempty) hbody hclose (hnoted _ rfl)

theorem exists_of_parenWithin?_go {window passed k : Nat} {address : List Char}
    (h : parenWithin?.go window address passed = some k) :
    ∃ url rest, address = url ++ ')' :: rest ∧ ')' ∉ url ∧ k = passed + url.length := by
  induction address generalizing window passed with
  | nil => cases window <;> simp [parenWithin?.go] at h
  | cons c address ih =>
    cases window with
    | zero => simp [parenWithin?.go] at h
    | succ window =>
      rw [parenWithin?.go] at h
      by_cases hc : c = ')'
      · rw [if_pos hc, Option.some.injEq] at h
        exact ⟨[], address, by rw [hc]; rfl, by simp, by simp [h]⟩
      · rw [if_neg hc] at h
        obtain ⟨url, rest, rfl, hurl, rfl⟩ := ih h
        exact ⟨c :: url, rest, rfl, by simp [Ne.symm hc, hurl], by simp; omega⟩

/-- An address without a `)` has no end, however far it is looked for. -/
theorem parenWithin?_eq_none {address : List Char} (hfree : ')' ∉ address) (window : Nat) :
    parenWithin? window address = none := by
  rw [Option.eq_none_iff_forall_ne_some]
  intro len hlen
  obtain ⟨url, rest, rfl, -, -⟩ := exists_of_parenWithin?_go hlen
  exact hfree (List.mem_append_right url List.mem_cons_self)

theorem cuts_closeBracketBefore (lastParen : Option Nat) (after : List Char)
    (hnoted : (closeBracketBefore lastParen index (']' :: after)).IsNoted noted) :
    (closeBracketBefore lastParen index (']' :: after)).Cuts options noted prev (']' :: after) := by
  cases after with
  | nil => exact cuts_degraded Nat.zero_lt_one (by simp) _
  | cons d address =>
    by_cases hd : d = '('
    · subst hd
      simp only [closeBracketBefore, closeBracketWith] at hnoted ⊢
      cases hparen : parenWithin? (lastParen.elim 0 (· + 1 - (index + 2))) address with
      | none => exact cuts_degraded Nat.zero_lt_two (by simp) _
      | some len =>
        obtain ⟨url, rest, rfl, hurl, rfl⟩ := exists_of_parenWithin?_go hparen
        simp only [hparen, Nat.zero_add] at hnoted ⊢
        refine ⟨[']', '('] ++ url ++ [')'], rest, by simp, ?_, ?_⟩
        · cases url <;> simp [addressTo, clean]
        · have hkind : (addressTo index (']' :: '(' :: (url ++ ')' :: rest)) (some url.length)).kind =
              .address := by
            cases url <;> rfl
          rw [hkind]
          refine .address _ hurl ?_
          cases url with
          | nil => exact .inr (hnoted _ rfl)
          | cons e url => exact .inl (by simp)
    · unfold closeBracketBefore closeBracketWith
      split
      · rename_i heq
        exact absurd (List.cons_eq_cons.1 (List.cons_eq_cons.1 heq).2).1 hd
      · exact cuts_degraded Nat.zero_lt_one (by simp) _
      · exact cuts_degraded Nat.zero_lt_one (by simp) _

theorem length_bareUrl? (h : bareUrl? rest = some len) : 0 < len ∧ len ≤ rest.length := by
  simp only [bareUrl?, Option.bind_eq_bind, Option.bind_eq_some_iff] at h
  obtain ⟨scheme, hscheme, h⟩ := h
  have hfound := List.find?_some hscheme
  have hmem := List.mem_of_find?_eq_some hscheme
  have hprefix : scheme <+: rest := List.isPrefixOf_iff_prefix.1 hfound
  have hpos : 0 < scheme.length := by
    obtain rfl | rfl : scheme = "http://".toList ∨ scheme = "https://".toList := by simpa using hmem
    · decide
    · decide
  have htarget : ((rest.drop scheme.length).takeWhile isUrlChar).length ≤
      rest.length - scheme.length :=
    Nat.le_trans (List.takeWhile_prefix isUrlChar).length_le (Nat.le_of_eq List.length_drop)
  have hle := hprefix.length_le
  split at h
  · cases h
  · obtain rfl := Option.some.inj h
    omega

theorem cuts_ruleFor {trigger : Trigger} (lastParen : Option Nat) {after : List Char}
    (hallowed : trigger = .underscore → underlineAllowed prev after.head?)
    (hnoted : ((Scan.ruleFor lastParen trigger).read index (trigger.char :: after)).IsNoted noted) :
    ((Scan.ruleFor lastParen trigger).read index (trigger.char :: after)).Cuts options noted prev
      (trigger.char :: after) := by
  cases trigger with
  | star => exact cuts_star after
  | tilde => exact cuts_tilde after
  | backtick => exact cuts_code after hnoted
  | backslash => exact cuts_escape after hnoted
  | underscore => exact ⟨['_'], after, rfl, rfl, .underline (hallowed rfl)⟩
  | bang => exact cuts_bang after
  | openBracket => exact cuts_openBracket after
  | closeBracket => exact cuts_closeBracketBefore lastParen after hnoted

end Reading

theorem Construct.cuts {lastParen : Option Nat} {c : Char}
    {after : List Char} {construct : Construct}
    (h : Scan.construct? options lastParen prev index c after = some construct)
    (hnoted : ∀ finding ∈ construct.finding? index,
      noted finding.warning.relatedKind finding.warning.issue) :
    construct.reading.Cuts options noted prev (c :: after) := by
  unfold Scan.construct? at h
  split at h
  · rename_i trigger htrigger
    obtain rfl := Option.some.inj h
    obtain ⟨hchar, hallowed⟩ := Option.filter_eq_some_iff.1 htrigger
    obtain rfl := Trigger.char_of_ofChar? hchar
    refine Reading.cuts_ruleFor lastParen ?_ ?_
    · rintro rfl
      simpa using hallowed
    · intro warning hwarning
      exact hnoted _ (Option.map_eq_some_iff.2 ⟨warning, hwarning, rfl⟩)
  · split at h
    · obtain ⟨len, hlen, rfl⟩ := Option.map_eq_some_iff.1 h
      obtain ⟨hpos, hle⟩ := Reading.length_bareUrl? hlen
      refine ⟨(c :: after).take len, (c :: after).drop len, (List.take_append_drop ..).symm,
        (List.length_take_of_le hle).symm, .bareUrl _ ?_ ?_⟩
      · rename_i hon
        simp only [Bool.and_eq_true] at hon
        exact hon.1.1
      rw [ne_eq, ← List.length_eq_zero_iff, List.length_take_of_le hle]
      exact Nat.ne_of_gt hpos
    · cases h

/-! ### What a scan reads -/

/-- What of a token decides what is made of it. -/
def Token.piece (token : Token) : TokenKind × List Char := (token.kind, token.raw)

namespace Scanned

def pieces (scanned : Scanned) :
    List (TokenKind × List Char) := scanned.tokens.toList.map Token.piece

/-- The piece for plain text, held backwards, if there is any. -/
def plainPieces (plain : List Char) : List (TokenKind × List Char) :=
  if plain.isEmpty then [] else [(.text, plain.reverse)]

theorem textOf_plainPieces (plain : List Char) : textOf (plainPieces plain) = plain.reverse := by
  cases plain <;> simp [plainPieces]

theorem cut_plainPieces (plain : List Char) : Cut options noted prev (plainPieces plain) next := by
  cases plain with
  | nil => trivial
  | cons c plain => exact ⟨.text _ (by simp), trivial⟩

theorem pieces_addPlain (out : Scanned) (stop : Nat) (plain : List Char) :
    (out.addPlain stop plain).pieces = out.pieces ++ plainPieces plain := by
  cases plain <;> simp [addPlain, pieces, plainPieces, Token.piece]

theorem pieces_add (out : Scanned) (token : Token) (finding : Option Finding) :
    (out.add token finding).pieces = out.pieces ++ [token.piece] := by
  cases finding <;> simp [add, pieces]

theorem findings_addPlain (out : Scanned) (stop : Nat) (plain : List Char) :
    (out.addPlain stop plain).findings = out.findings := by
  unfold addPlain
  split <;> rfl

theorem findings_add (out : Scanned) (token : Token) (finding : Option Finding) :
    (out.add token finding).findings.toList = out.findings.toList ++ finding.toList := by
  cases finding <;> simp [add]

end Scanned

namespace Scan

variable {lastParen : Option Nat} {plain text : List Char} {out : Scanned}

theorem mem_findings_scanFrom {finding : Finding} (h : finding ∈ out.findings) :
    finding ∈ (scanFrom options lastParen prev index plain out text).findings := by
  fun_induction scanFrom options lastParen prev index plain out text with
  | case1 prev index plain out => rwa [Scanned.findings_addPlain]
  | case2 prev index plain out c after construct hconstruct token ih =>
    apply ih
    rw [← Array.mem_toList_iff, Scanned.findings_add, Scanned.findings_addPlain]
    exact List.mem_append_left _ (Array.mem_toList_iff.2 h)
  | case3 prev index plain out c after hconstruct ih => exact ih h

/-- The tokens of a text cover all of it, each of them as it should. `plain` is held backwards and
stands after `start`. -/
theorem cut_scanFrom {start : Option Char} (hstart : prev = plain.head?.or start)
    (hnoted : ∀ finding ∈ (scanFrom options lastParen prev index plain out text).findings,
      noted finding.warning.relatedKind finding.warning.issue) :
    ∃ pieces, (scanFrom options lastParen prev index plain out text).pieces = out.pieces ++ pieces ∧
      textOf pieces = plain.reverse ++ text ∧ Cut options noted start pieces none := by
  fun_induction scanFrom options lastParen prev index plain out text generalizing start with
  | case1 prev index plain =>
    refine ⟨Scanned.plainPieces plain, Scanned.pieces_addPlain .., ?_, Scanned.cut_plainPieces plain⟩
    rw [Scanned.textOf_plainPieces, List.append_nil]
  | case2 prev index plain out c after construct hconstruct token =>
    rename_i ih
    have hfound : ∀ finding ∈ construct.finding? index,
        noted finding.warning.relatedKind finding.warning.issue := by
      intro finding hfinding
      refine hnoted finding (mem_findings_scanFrom ?_)
      rw [← Array.mem_toList_iff, Scanned.findings_add]
      exact List.mem_append_right _ (Option.mem_toList.2 hfinding)
    obtain ⟨raw, rest, hsplit, hlen, hfits⟩ := construct.cuts hconstruct hfound
    obtain ⟨(hraw : token.raw = raw), hrest⟩ := split_at_len hsplit hlen hfits.raw_ne_nil
    obtain ⟨pieces, hpieces, htext, hcut⟩ := ih rfl hnoted
    refine ⟨Scanned.plainPieces plain ++ token.piece :: pieces, ?_, ?_, ?_⟩
    · rw [hpieces, Scanned.pieces_add, Scanned.pieces_addPlain]
      simp
    · rw [textOf_append, textOf_cons, htext, hrest, Scanned.textOf_plainPieces, Token.piece, hraw,
        hsplit]
      rfl
    · refine cut_append.2 ⟨Scanned.cut_plainPieces plain, ?_, hcut⟩
      have hpiece : Fits options noted prev token.kind raw rest.head? := hfits
      rw [hraw, htext, hrest, Scanned.textOf_plainPieces, List.getLast?_reverse, ← hstart]
      simpa using hpiece
  | case3 prev index plain out c after hconstruct ih =>
    obtain ⟨pieces, hpieces, htext, hcut⟩ := ih rfl hnoted
    exact ⟨pieces, hpieces, by simpa using htext, hcut⟩

end Scan

/-- Whether a warning of the kind is among those of the scan. -/
def Scanned.Notes (scanned : Scanned) (kind : TokenKind) (issue : Issue) : Prop :=
  ∃ finding ∈ scanned.findings, finding.warning.relatedKind = kind ∧ finding.warning.issue = issue

theorem cut_scan (options : ScanOptions) (text : List Char) :
    textOf (scan options text).pieces = text ∧
      Cut options (scan options text).Notes none (scan options text).pieces none := by
  have hnoted : ∀ finding ∈ (scan options text).findings,
      (scan options text).Notes finding.warning.relatedKind finding.warning.issue :=
    fun finding hfinding => ⟨finding, hfinding, rfl, rfl⟩
  have hstart : (none : Option Char) = ([] : List Char).head?.or none := rfl
  obtain ⟨pieces, hpieces, htext, hcut⟩ := Scan.cut_scanFrom hstart hnoted
  have hall : (scan options text).pieces = pieces := hpieces
  rw [hall]
  exact ⟨htext, hcut⟩

end InlineMarkup
