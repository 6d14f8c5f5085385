import InlineMarkup.Proofs.Lexemes

/-! Faults: which tokens of a text a scan complains about, and at which bytes. -/

namespace InlineMarkup

open Backtick Reading

namespace Token

/-- Whether the token is not what it was meant to be: a trigger that is text, a backslash before what
needs none, a link or image without an address, or a block without its closing fence. -/
def isFaulty (token : Token) : Bool :=
  match token.kind with
  | .text => token.raw.head?.any (['~', '`', '\\', '!', '[', ']'].contains ·)
  | .escape => token.raw[1]?.any (!isTrigger ·)
  | .address => token.raw == [']', '(', ')']
  | .codeBlock => runLength (token.raw.drop (runLength token.raw)).reverse != runLength token.raw
  | .bold | .italic | .strikethrough | .codeInline | .underline | .linkStart | .bareUrl
  | .imageStart => false

/-- The byte of the fault. An empty address is missed where its parenthesis opens. -/
def faultPos (token : Token) : Nat :=
  match token.kind with
  | .address => token.pos + 1
  | _ => token.pos

end Token

/-- Whether the warning is about the token: it names the byte of the fault and shows the text from
there on. -/
def Warning.Reports (text : List Char) (warning : Warning) (token : Token) : Prop :=
  warning.byteIndex = token.faultPos ∧ ∃ rest, dropBytes? warning.byteIndex text = some rest ∧
    rest ≠ [] ∧ warning.near = some (rest.take Warning.snippetLength)

variable {options : ScanOptions} {lastParen : Option Nat} {before after rest raw : List Char}
  {index fence : Nat} {stretch : Stretch} {stretches : List Stretch}

theorem Warning.snippet?_of_ne_nil (h : rest ≠ []) :
    snippet? rest = some (rest.take snippetLength) := by
  rw [snippet?, if_neg (by simpa using h)]

namespace Backtick

theorem runLength_reverse_fenced {content : List Char} (hlast : content.getLast? ≠ some '`') :
    runLength (content ++ List.replicate fence '`').reverse = fence := by
  rw [List.reverse_append, List.reverse_replicate, runLength_replicate_append]
  rwa [List.head?_reverse]

/-- The backticks at the end of a text are a run of it. -/
theorem hasRun_runLength_reverse (s : List Char) : HasRun (runLength s.reverse) s := by
  obtain ⟨t, hrev, ht⟩ := exists_run s.reverse
  refine ⟨t.reverse, [], ?_, by rwa [List.getLast?_reverse], by simp⟩
  rw [List.append_nil, ← List.reverse_replicate, ← List.reverse_append, ← hrev, List.reverse_reverse]

end Backtick

/-! ### What the rules complain about -/

namespace Reading

/-- Whether a reading of `rest` at byte `index` comes with a warning where its token is faulty, and
with none elsewhere. -/
inductive Accounts (reading : Reading) (index : Nat) (rest : List Char) : Prop
  | sound (hwarning : reading.warning = none) (htoken : ¬(reading.token index rest).isFaulty)
  | faulty {warning : Warning} {s t : List Char} (hwarning : reading.warning = some warning)
      (htoken : (reading.token index rest).isFaulty)
      (hpos : warning.byteIndex = (reading.token index rest).faultPos) (hrest : rest = s ++ t)
      (hindex : warning.byteIndex = index + byteSize s) (ht : t ≠ [])
      (hnear : warning.near = Warning.snippet? t)

/-- A trigger that is text is complained about where it stands. -/
theorem accounts_degraded {c : Char} {len : Nat} {warning : Warning} (hlen : len ≠ 0)
    (hc : ['~', '`', '\\', '!', '[', ']'].contains c) (hindex : warning.byteIndex = index)
    (hnear : warning.near = Warning.snippet? (c :: after)) :
    (degraded len warning).Accounts index (c :: after) := by
  obtain ⟨n, rfl⟩ := Nat.exists_eq_succ_of_ne_zero hlen
  exact .faulty rfl hc hindex (List.nil_append _).symm hindex (List.cons_ne_nil _ _) hnear

theorem unexpected_spec (kind : TokenKind) (index : Nat) (rest : List Char) (expected : String)
    (found : Option Char) (suggestion : Option String) :
    (Warning.unexpected kind index rest expected found suggestion).byteIndex = index ∧
      (Warning.unexpected kind index rest expected found suggestion).near = Warning.snippet? rest := by
  cases found <;> exact ⟨rfl, rfl⟩

theorem accounts_star (after : List Char) : (star ('*' :: after)).Accounts index ('*' :: after) := by
  unfold star
  split <;> exact .sound rfl Bool.false_ne_true

theorem accounts_tilde (after : List Char) :
    (tilde index ('~' :: after)).Accounts index ('~' :: after) := by
  unfold tilde
  split
  · exact .sound rfl Bool.false_ne_true
  · obtain ⟨hindex, hnear⟩ := unexpected_spec ..
    exact accounts_degraded Nat.one_ne_zero rfl hindex hnear

theorem accounts_bang (after : List Char) :
    (bang index ('!' :: after)).Accounts index ('!' :: after) := by
  unfold bang
  split
  · exact .sound rfl Bool.false_ne_true
  · obtain ⟨hindex, hnear⟩ := unexpected_spec ..
    exact accounts_degraded Nat.one_ne_zero rfl hindex hnear

theorem accounts_openBracket (after : List Char) :
    (openBracket index ('[' :: after)).Accounts index ('[' :: after) := by
  unfold openBracket
  split
  · exact .sound rfl Bool.false_ne_true
  · exact accounts_degraded Nat.one_ne_zero rfl rfl rfl

theorem accounts_escape (after : List Char) :
    (escape index ('\\' :: after)).Accounts index ('\\' :: after) := by
  cases after with
  | nil => exact accounts_degraded Nat.one_ne_zero rfl rfl rfl
  | cons c after =>
    by_cases hc : isTrigger c
    · simp only [escape, if_pos hc]
      exact .sound rfl (by simp [clean, Reading.token, Token.isFaulty, hc])
    · simp only [escape, if_neg hc]
      exact .faulty rfl (by simp [Reading.token, Token.isFaulty, hc]) rfl (List.nil_append _).symm rfl
        (List.cons_ne_nil _ _) rfl

theorem accounts_addressTo {url : List Char} :
    (addressTo index ((Mark.address url).written ++ after) (some url.length)).Accounts index
      ((Mark.address url).written ++ after) := by
  cases url with
  | nil =>
    have hrest : (Mark.address []).written ++ after = [']'] ++ '(' :: ')' :: after := rfl
    exact .faulty rfl rfl rfl hrest rfl (List.cons_ne_nil _ _) rfl
  | cons c url =>
    refine .sound rfl ?_
    simp [addressTo, clean, Reading.token, Token.isFaulty, Mark.written]

theorem accounts_closeBracketBefore (after : List Char)
    (hcovers : Covers lastParen index (']' :: after)) :
    (closeBracketBefore lastParen index (']' :: after)).Accounts index (']' :: after) := by
  by_cases hnext : after.head? = some '('
  · obtain ⟨address, rfl⟩ := List.head?_eq_some_iff.1 hnext
    cases hparen : parenWithin? (lastParen.elim 0 (· + 1 - (index + 2))) address with
    | none =>
      simp only [closeBracketBefore, closeBracketWith, hparen]
      obtain ⟨hindex, hnear⟩ := unexpected_spec ..
      exact accounts_degraded (Nat.succ_ne_zero 1) rfl hindex hnear
    | some len =>
      obtain ⟨url, t, rfl, hurl, -⟩ := exists_of_parenWithin?_go hparen
      have hwritten : ']' :: '(' :: (url ++ ')' :: t) = (Mark.address url).written ++ t := by
        simp [Mark.written]
      rw [hwritten] at hcovers ⊢
      rw [read_address hurl hcovers]
      exact accounts_addressTo
  · unfold closeBracketBefore closeBracketWith
    split
    · rename_i heq
      obtain ⟨_, rfl⟩ := List.cons_eq_cons.1 heq
      exact absurd rfl hnext
    · obtain ⟨hindex, hnear⟩ := unexpected_spec ..
      exact accounts_degraded Nat.one_ne_zero rfl hindex hnear
    · obtain ⟨hindex, hnear⟩ := unexpected_spec ..
      exact accounts_degraded Nat.one_ne_zero rfl hindex hnear

theorem accounts_code (after : List Char) :
    (code index ('`' :: after)).Accounts index ('`' :: after) := by
  obtain ⟨body, hrest, hbody⟩ := exists_run ('`' :: after)
  have hfence : runLength ('`' :: after) ≠ 0 := by simp [runLength]
  generalize hrun : runLength ('`' :: after) = fence at hrest hfence
  have hdrop : ('`' :: after).drop fence = body := by
    rw [hrest, List.drop_left' (List.length_replicate ..)]
  simp only [code, hrun, hdrop]
  by_cases hempty : body.isEmpty
  · rw [if_pos hempty]
    exact accounts_degraded hfence rfl rfl rfl
  rw [if_neg hempty]
  cases hclose : closing? fence body with
  | some len =>
    obtain ⟨content, t, rfl, rfl, hne, hlast, -, -⟩ := exists_of_closing?_eq_some hfence hbody hclose
    refine .sound rfl ?_
    have hhead : (content ++ List.replicate fence '`').head? ≠ some '`' := by
      obtain ⟨c, content, rfl⟩ := List.exists_cons_of_ne_nil hne
      simpa using hbody
    have htake : ('`' :: after).take (fence + (content.length + fence)) =
        List.replicate fence '`' ++ (content ++ List.replicate fence '`') := by
      rw [hrest, ← List.append_assoc content, ← List.append_assoc]
      exact List.take_left' (by simp)
    simp only [clean, Reading.token, htake]
    split
    · simp only [Token.isFaulty, runLength_replicate_append hhead,
        List.drop_left' (List.length_replicate ..), runLength_reverse_fenced hlast,
        bne_self_eq_false, Bool.false_eq_true, not_false_iff]
    · exact Bool.false_ne_true
  | none =>
    simp only
    split
    · exact accounts_degraded hfence rfl rfl rfl
    · refine .faulty rfl ?_ rfl (List.nil_append _).symm rfl (List.cons_ne_nil _ _) rfl
      have hopen : runLength body.reverse ≠ fence := by
        rintro rfl
        exact (closing?_eq_none_iff hfence).1 hclose (hasRun_runLength_reverse body)
      simpa only [Reading.token, Token.isFaulty, List.take_length, hrun, hdrop, bne_iff_ne] using hopen

theorem accounts_ruleFor {trigger : Trigger} (after : List Char)
    (hcovers : Covers lastParen index (trigger.char :: after)) :
    ((Scan.ruleFor lastParen trigger).read index (trigger.char :: after)).Accounts index
      (trigger.char :: after) := by
  cases trigger with
  | star => exact accounts_star after
  | tilde => exact accounts_tilde after
  | backtick => exact accounts_code after
  | backslash => exact accounts_escape after
  | underscore => exact .sound rfl Bool.false_ne_true
  | bang => exact accounts_bang after
  | openBracket => exact accounts_openBracket after
  | closeBracket => exact accounts_closeBracketBefore after hcovers

end Reading

/-! ### What a scan complains about -/

namespace Stretch

/-- The token of a stretch at byte `pos`. -/
def token (stretch : Stretch) (pos : Nat) : Token := ⟨stretch.kind, pos, stretch.raw⟩

/-- Plain text is never faulty. -/
theorem not_isFaulty_of_plainText {pos : Nat} (h : PlainText raw) :
    ¬(Token.mk .text pos raw).isFaulty := by
  cases raw with
  | nil => exact Bool.false_ne_true
  | cons c raw =>
    intro hfaulty
    have hc : ['~', '`', '\\', '!', '[', ']'].contains c := hfaulty
    simp only [List.contains_iff_mem, List.mem_cons, List.not_mem_nil, or_false] at hc
    have hplain := h c (List.mem_cons_self ..)
    rcases hc with rfl | rfl | rfl | rfl | rfl | rfl <;> exact absurd (hplain rfl) (by decide)

/-- What a rule complains about is reported of the token that it reads. -/
theorem reports_of_accounts {reading : Reading} {trigger : Trigger}
    (h : reading.Accounts (byteSize before) rest) :
    List.Forall₂ (Warning.Reports (before ++ rest))
      (((Construct.owned trigger reading).finding? (byteSize before)).toList.map (·.warning))
      ([reading.token (byteSize before) rest].filter Token.isFaulty) := by
  cases h with
  | sound hwarning htoken =>
    rw [List.filter_cons_of_neg htoken, Construct.finding?, hwarning]
    exact .nil
  | @faulty warning s t hwarning htoken hpos hrest hindex ht hnear =>
    rw [List.filter_cons_of_pos htoken, Construct.finding?, hwarning]
    refine .cons ⟨hpos, t, ?_, ht, ?_⟩ .nil
    · rw [hindex, hrest, ← byteSize_append, ← List.append_assoc, dropBytes?_append]
    · rw [hnear, Warning.snippet?_of_ne_nil ht]

/-- A stretch comes with a warning about its token where that is faulty, and with none elsewhere. -/
theorem Stands.reports (h : Stands options lastParen before after stretch)
    (hcovers : Covers lastParen (byteSize before) (stretch.raw ++ after)) :
    List.Forall₂ (Warning.Reports (before ++ (stretch.raw ++ after)))
      ((stretch.construct.bind (·.finding? (byteSize before))).toList.map (·.warning))
      ([stretch.token (byteSize before)].filter Token.isFaulty) := by
  cases h with
  | @plain raw hraw hnone =>
    have hplain : PlainText raw := Stands.plainText (.plain hraw hnone) rfl
    have hsound : ¬(Stretch.token ⟨none, raw⟩ (byteSize before)).isFaulty :=
      not_isFaulty_of_plainText hplain
    rw [List.filter_cons_of_neg hsound]
    exact .nil
  | @construct c t _ hconstruct hlen =>
    rcases Scan.construct?_eq_some hconstruct with ⟨trigger, rfl, -, rfl⟩ | ⟨-, -, len, -, rfl⟩
    · have htoken : Reading.token _ (byteSize before) (trigger.char :: (t ++ after)) =
          Stretch.token ⟨some (.owned trigger _), trigger.char :: t⟩ (byteSize before) :=
        congrArg (Token.mk _ _) (List.take_left' hlen.symm)
      rw [← htoken]
      exact reports_of_accounts (accounts_ruleFor (t ++ after) hcovers)
    · exact .nil

theorem reports_passed (h : Passed options lastParen before stretches)
    (hcovers : Covers lastParen (byteSize before) (stretches.flatMap Stretch.raw)) :
    List.Forall₂ (Warning.Reports (before ++ stretches.flatMap Stretch.raw))
      ((findingsFrom (byteSize before) stretches).map (·.warning))
      ((Token.placeFrom (byteSize before) (stretches.map piece)).filter Token.isFaulty) := by
  induction stretches generalizing before with
  | nil => exact .nil
  | cons stretch stretches ih =>
    have hfirst := h.1.reports hcovers
    have hrest := ih h.2.2 (by rw [byteSize_append]; exact hcovers.drop)
    rw [byteSize_append, List.append_assoc] at hrest
    have htokens : Token.placeFrom (byteSize before) ((stretch :: stretches).map piece) =
        [stretch.token (byteSize before)] ++
          Token.placeFrom (byteSize before + byteSize stretch.raw) (stretches.map piece) := rfl
    rw [findingsFrom, List.map_append, htokens, List.filter_append, List.flatMap_cons]
    exact List.rel_append hfirst hrest

end Stretch

namespace Token

/-- The fault lies within the token. -/
theorem faultPos_lt_stop {token : Token} (h : token.isFaulty) :
    token.pos ≤ token.faultPos ∧ token.faultPos < token.stop := by
  obtain ⟨kind, pos, raw⟩ := token
  have hraw : raw ≠ [] := by
    rintro rfl
    cases kind <;> simp [isFaulty, runLength] at h
  have hsize := byteSize_pos hraw
  by_cases hkind : kind = .address
  · subst hkind
    obtain rfl : raw = [']', '(', ')'] := eq_of_beq h
    have hsize : 1 < byteSize [']', '(', ')'] := by decide
    exact ⟨Nat.le_succ pos, Nat.add_lt_add_left hsize pos⟩
  · have hpos : Token.faultPos ⟨kind, pos, raw⟩ = pos := by
      cases kind <;> first | rfl | exact absurd rfl hkind
    rw [hpos]
    exact ⟨Nat.le_refl pos, Nat.lt_add_of_pos_right hsize⟩

theorem pairwise_placeFrom (start : Nat) (pieces : List (TokenKind × List Char)) :
    (placeFrom start pieces).Pairwise fun token later => token.stop ≤ later.pos := by
  induction pieces generalizing start with
  | nil => exact .nil
  | cons piece pieces ih =>
    refine .cons ?_ (ih _)
    intro later hlater
    obtain ⟨ps, qs, -, hpos⟩ := exists_of_mem_placeFrom hlater
    rw [hpos]
    exact Nat.le_add_right ..

end Token

/-- The warnings about a text are about its faulty tokens, one about each of them in their order. They name
bytes further and further on in the text. -/
theorem warnings_scan (options : ScanOptions) (text : List Char) :
    List.Forall₂ (Warning.Reports text) (scan options text).warnings.toList
        ((scan options text).tokens.toList.filter Token.isFaulty) ∧
      ((scan options text).warnings.toList.map (·.byteIndex)).Pairwise (· < ·) ∧
      ∀ warning ∈ (scan options text).warnings, warning.byteIndex < byteSize text := by
  obtain ⟨stretches, hpassed, htext, htokens, hfindings⟩ := exists_stretches options text
  have hwarnings : (scan options text).warnings.toList =
      (Stretch.findingsFrom 0 stretches).map (·.warning) := by
    rw [Scanned.warnings, Array.toList_map, hfindings]
  have hreports : List.Forall₂ (Warning.Reports text) (scan options text).warnings.toList
      ((scan options text).tokens.toList.filter Token.isFaulty) := by
    have hall := Stretch.reports_passed hpassed (htext ▸ covers_lastOffset? text)
    rw [hwarnings, htokens]
    rwa [htext] at hall
  have hindices : (scan options text).warnings.toList.map (·.byteIndex) =
      ((scan options text).tokens.toList.filter Token.isFaulty).map Token.faultPos := by
    rw [← List.forall₂_eq_eq_eq, List.forall₂_map_left_iff, List.forall₂_map_right_iff]
    exact hreports.imp fun _ _ h => h.1
  refine ⟨hreports, ?_, ?_⟩
  · rw [hindices, List.pairwise_map, htokens, List.pairwise_filter]
    refine (Token.pairwise_placeFrom 0 _).imp ?_
    intro token later hle hfaulty hfaulty'
    have hstop := (Token.faultPos_lt_stop hfaulty).2
    have hpos := (Token.faultPos_lt_stop hfaulty').1
    omega
  · intro warning hwarning
    have hmem : warning.byteIndex ∈ (scan options text).warnings.toList.map (·.byteIndex) :=
      List.mem_map_of_mem (Array.mem_toList_iff.2 hwarning)
    rw [hindices] at hmem
    obtain ⟨token, htoken, hpos⟩ := List.mem_map.1 hmem
    obtain ⟨htoken, hfaulty⟩ := List.mem_filter.1 htoken
    rw [htokens] at htoken
    obtain ⟨ps, qs, hsplit, hstart⟩ := Token.exists_of_mem_placeFrom htoken
    have hstop := (Token.faultPos_lt_stop hfaulty).2
    have hsize := congrArg (fun pieces => byteSize (textOf pieces)) hsplit
    simp only [Stretch.textOf_map_piece, htext, textOf_append, textOf_cons, byteSize_append] at hsize
    have hlen : token.byteLen = byteSize token.piece.2 := rfl
    rw [Token.stop] at hstop
    omega

end InlineMarkup
