import InlineMarkup.Proofs.Rescan
import InlineMarkup.Proofs.Tiling
import Mathlib.Data.List.TakeWhile

/-! Lexemes: what each token of a text looks like, seen with the text before and after it. -/

namespace InlineMarkup

open Backtick Reading

/-- Whether an address that stands alone starts with `rest`, after `before`. -/
def UrlStarts (options : ScanOptions) (before rest : List Char) : Prop :=
  options.bareUrls ∧ ¬before.getLast?.any Unicode.isAlphanumeric ∧
    ∃ scheme c t, (scheme = "http://".toList ∨ scheme = "https://".toList) ∧
      rest = scheme ++ c :: t ∧ isUrlChar c

/-- Whether a token between `before` and `after` has the shape of its kind. Text is plain, or a trigger
that starts nothing. -/
inductive Lexeme (options : ScanOptions) (before : List Char) :
    TokenKind → List Char → List Char → Prop
  | bold (after : List Char) : Lexeme options before .bold ['*', '*'] after
  | italic {after : List Char} (hnext : after.head? ≠ some '*') :
      Lexeme options before .italic ['*'] after
  | strikethrough (after : List Char) : Lexeme options before .strikethrough ['~', '~'] after
  | underline {after : List Char} (hallowed : underlineAllowed before.getLast? after.head?) :
      Lexeme options before .underline ['_'] after
  | escape (c : Char) (after : List Char) : Lexeme options before .escape ['\\', c] after
  | linkStart {after : List Char} (hafter : after ≠ []) :
      Lexeme options before .linkStart ['['] after
  | imageStart (after : List Char) : Lexeme options before .imageStart ['!', '['] after
  | address {url : List Char} (after : List Char) (hurl : ')' ∉ url) :
      Lexeme options before .address ([']', '('] ++ url ++ [')']) after
  | code {fence : Nat} {content after : List Char} (hfence : fence ≠ 0) (hcontent : content ≠ [])
      (hhead : content.head? ≠ some '`') (hlast : content.getLast? ≠ some '`')
      (hfree : ¬HasRun fence content) (hnext : after.head? ≠ some '`') :
      Lexeme options before (if blockFence ≤ fence then .codeBlock else .codeInline)
        (Markdown.fenced fence content) after
  | openCode {fence : Nat} {content : List Char} (hfence : blockFence ≤ fence)
      (hcontent : content ≠ []) (hhead : content.head? ≠ some '`') (hfree : ¬HasRun fence content) :
      Lexeme options before .codeBlock (List.replicate fence '`' ++ content) []
  | bareUrl {scheme target after : List Char} (hon : options.bareUrls)
      (hprev : ¬before.getLast?.any Unicode.isAlphanumeric)
      (hscheme : scheme = "http://".toList ∨ scheme = "https://".toList) (htarget : target ≠ [])
      (hchars : ∀ c ∈ target, isUrlChar c) (hnext : ¬after.head?.any isUrlChar) :
      Lexeme options before .bareUrl (scheme ++ target) after
  | plain {raw after : List Char} (hraw : raw ≠ [])
      (htriggers : ∀ s c t, raw = s ++ c :: t → isTrigger c →
        c = '_' ∧ ¬underlineAllowed (before ++ s).getLast? (t ++ after).head?)
      (hurls : ∀ s t, raw = s ++ t → t ≠ [] → ¬UrlStarts options (before ++ s) (t ++ after)) :
      Lexeme options before .text raw after
  | loneTilde {after : List Char} (hnext : after.head? ≠ some '~') :
      Lexeme options before .text ['~'] after
  | loneBang {after : List Char} (hnext : after.head? ≠ some '[') :
      Lexeme options before .text ['!'] after
  | loneBracket {after : List Char} (hnext : after.head? ≠ some '(') :
      Lexeme options before .text [']'] after
  | openAddress {after : List Char} (hparen : ')' ∉ after) :
      Lexeme options before .text [']', '('] after
  | lastBracket : Lexeme options before .text ['['] []
  | lastBackslash : Lexeme options before .text ['\\'] []
  | ticks {n : Nat} {after : List Char} (hn : n ≠ 0) (hnext : after.head? ≠ some '`')
      (hopen : after = [] ∨ n < blockFence ∧ ¬HasRun n after) :
      Lexeme options before .text (List.replicate n '`') after

variable {options : ScanOptions} {lastParen : Option Nat} {before raw after rest : List Char}
  {index len : Nat} {kind : TokenKind}

theorem Lexeme.raw_ne_nil (h : Lexeme options before kind raw after) : raw ≠ [] := by
  cases h with
  | code _ hcontent => simp [Markdown.fenced, hcontent]
  | openCode _ hcontent => simp [hcontent]
  | bareUrl _ _ _ htarget => simp [htarget]
  | plain hraw => exact hraw
  | ticks hn => simpa using hn
  | _ => simp

/-! ### What the rules read -/

namespace Reading

theorem tilde_of_ne (index : Nat) (h : after.head? ≠ some '~') :
    (tilde index ('~' :: after)).kind = .text ∧ (tilde index ('~' :: after)).len = 1 := by
  unfold tilde
  split
  · rename_i heq
    obtain ⟨_, rfl⟩ := List.cons_eq_cons.1 heq
    exact absurd rfl h
  · exact ⟨rfl, rfl⟩

theorem bang_of_ne (index : Nat) (h : after.head? ≠ some '[') :
    (bang index ('!' :: after)).kind = .text ∧ (bang index ('!' :: after)).len = 1 := by
  unfold bang
  split
  · rename_i heq
    obtain ⟨_, rfl⟩ := List.cons_eq_cons.1 heq
    exact absurd rfl h
  · exact ⟨rfl, rfl⟩

theorem escape_cons (index : Nat) (c : Char) (after : List Char) :
    (escape index ('\\' :: c :: after)).kind = .escape ∧
      (escape index ('\\' :: c :: after)).len = 2 := by
  simp only [escape]
  split <;> exact ⟨rfl, rfl⟩

theorem closeBracketBefore_of_ne (lastParen : Option Nat) (index : Nat)
    (h : after.head? ≠ some '(') :
    (closeBracketBefore lastParen index (']' :: after)).kind = .text ∧
      (closeBracketBefore lastParen index (']' :: after)).len = 1 := by
  unfold closeBracketBefore closeBracketWith
  split
  · rename_i heq
    obtain ⟨_, rfl⟩ := List.cons_eq_cons.1 heq
    exact absurd rfl h
  · exact ⟨rfl, rfl⟩
  · exact ⟨rfl, rfl⟩

theorem closeBracketBefore_address {url : List Char} (hurl : ')' ∉ url)
    (hcovers : Covers lastParen index ((Mark.address url).written ++ after)) :
    (closeBracketBefore lastParen index ((Mark.address url).written ++ after)).kind = .address ∧
      (closeBracketBefore lastParen index ((Mark.address url).written ++ after)).len =
        (Mark.address url).written.length := by
  rw [read_address hurl hcovers]
  cases url with
  | nil => exact ⟨rfl, rfl⟩
  | cons c url => exact ⟨rfl, by simp [addressTo, clean, Mark.written]⟩

/-- The end of an address that is never closed is not found. -/
theorem closeBracketBefore_openAddress (lastParen : Option Nat) (index : Nat)
    (hparen : ')' ∉ after) :
    (closeBracketBefore lastParen index (']' :: '(' :: after)).kind = .text ∧
      (closeBracketBefore lastParen index (']' :: '(' :: after)).len = 2 := by
  simp only [closeBracketBefore, closeBracketWith, parenWithin?_eq_none hparen]
  exact ⟨rfl, rfl⟩

theorem code_ticks (index : Nat) {n : Nat} (hnext : after.head? ≠ some '`')
    (hopen : after = [] ∨ n < blockFence ∧ closing? n after = none) :
    (code index (List.replicate n '`' ++ after)).kind = .text ∧
      (code index (List.replicate n '`' ++ after)).len = n := by
  simp only [code, runLength_replicate_append hnext, List.drop_left' (List.length_replicate ..)]
  rcases hopen with rfl | ⟨hshort, hnone⟩
  · exact ⟨rfl, rfl⟩
  · simp only [hnone, if_pos hshort]
    split <;> exact ⟨rfl, rfl⟩

theorem code_open (index : Nat) {fence : Nat} {content : List Char}
    (hfence : blockFence ≤ fence) (hcontent : content ≠ []) (hhead : content.head? ≠ some '`')
    (hnone : closing? fence content = none) :
    (code index (List.replicate fence '`' ++ content)).kind = .codeBlock ∧
      (code index (List.replicate fence '`' ++ content)).len =
        (List.replicate fence '`' ++ content).length := by
  have hempty : ¬content.isEmpty := by simpa using hcontent
  have hlong : ¬fence < blockFence := Nat.not_lt.2 hfence
  simp only [code, runLength_replicate_append hhead, List.drop_left' (List.length_replicate ..),
    if_neg hempty, hnone, if_neg hlong, and_self]

/-! ### Addresses that stand alone -/

theorem scheme?_append {scheme : List Char}
    (h : scheme = "http://".toList ∨ scheme = "https://".toList) (rest : List Char) :
    scheme? (scheme ++ rest) = some scheme := by
  rcases h with rfl | rfl <;> rfl

theorem of_scheme?_eq_some {scheme : List Char} (h : scheme? rest = some scheme) :
    (scheme = "http://".toList ∨ scheme = "https://".toList) ∧ ∃ t, rest = scheme ++ t := by
  have hmem := List.mem_of_find?_eq_some h
  have hfound := List.find?_some h
  obtain ⟨t, ht⟩ : scheme <+: rest := List.isPrefixOf_iff_prefix.1 hfound
  exact ⟨by simpa using hmem, t, ht.symm⟩

/-- The characters of an address go on as far as they can. -/
theorem takeWhile_isUrlChar {target : List Char} (hchars : ∀ c ∈ target, isUrlChar c)
    (hnext : ¬after.head?.any isUrlChar) : (target ++ after).takeWhile isUrlChar = target := by
  have hstop : after.takeWhile isUrlChar = [] := by
    cases after with
    | nil => rfl
    | cons c after => exact List.takeWhile_cons_of_neg (by simpa using hnext)
  rw [List.takeWhile_append_of_pos hchars, hstop, List.append_nil]

theorem not_isUrlChar_head?_dropWhile (t : List Char) :
    ¬(t.dropWhile isUrlChar).head?.any isUrlChar := by
  have hstop := List.head?_dropWhile_not isUrlChar t
  cases hhead : (t.dropWhile isUrlChar).head? with
  | none => simp
  | some c => simpa [hhead] using hstop

theorem bareUrl?_eq_some_iff : bareUrl? rest = some len ↔ ∃ scheme target after,
    (scheme = "http://".toList ∨ scheme = "https://".toList) ∧ target ≠ [] ∧
      (∀ c ∈ target, isUrlChar c) ∧ ¬after.head?.any isUrlChar ∧
      rest = scheme ++ target ++ after ∧ len = (scheme ++ target).length := by
  constructor
  · intro h
    simp only [bareUrl?, Option.bind_eq_bind, Option.bind_eq_some_iff] at h
    obtain ⟨scheme, hscheme, h⟩ := h
    obtain ⟨hmem, t, rfl⟩ := of_scheme?_eq_some hscheme
    rw [List.drop_left' rfl] at h
    obtain ⟨hempty, hlen⟩ := Option.ite_none_left_eq_some.1 h
    refine ⟨scheme, t.takeWhile isUrlChar, t.dropWhile isUrlChar, hmem, by simpa using hempty,
      fun c hc => List.mem_takeWhile_imp hc, not_isUrlChar_head?_dropWhile t, ?_, ?_⟩
    · rw [List.append_assoc, List.takeWhile_append_dropWhile]
    · rw [List.length_append, Option.some.inj hlen]
  · rintro ⟨scheme, target, after, hscheme, htarget, hchars, hnext, rfl, rfl⟩
    rw [List.append_assoc]
    simp only [bareUrl?, scheme?_append hscheme, Option.bind_eq_bind, Option.bind_some,
      List.drop_left' rfl, takeWhile_isUrlChar hchars hnext]
    simp [htarget]

/-- Where a scheme and one more character stand, an address that stands alone is read. -/
theorem bareUrl?_eq_none_iff : bareUrl? rest = none ↔ ¬∃ scheme c t,
    (scheme = "http://".toList ∨ scheme = "https://".toList) ∧ rest = scheme ++ c :: t ∧
      isUrlChar c := by
  rw [Option.eq_none_iff_forall_ne_some]
  constructor
  · rintro hnone ⟨scheme, c, t, hscheme, rfl, hc⟩
    refine hnone _ (bareUrl?_eq_some_iff.2 ⟨scheme, (c :: t).takeWhile isUrlChar,
      (c :: t).dropWhile isUrlChar, hscheme, by simp [hc], fun d hd => List.mem_takeWhile_imp hd,
      not_isUrlChar_head?_dropWhile _, ?_, rfl⟩)
    rw [List.append_assoc, List.takeWhile_append_dropWhile]
  · intro hnot len hlen
    obtain ⟨scheme, target, after, hscheme, htarget, hchars, -, rfl, -⟩ := bareUrl?_eq_some_iff.1 hlen
    obtain ⟨c, target, rfl⟩ := List.exists_cons_of_ne_nil htarget
    exact hnot ⟨scheme, c, target ++ after, hscheme, by simp, hchars c (List.mem_cons_self ..)⟩

/-! ### What is read has its shape -/

/-- Whether a reading covers a lexeme at the beginning of `rest`, which stands after `before`. -/
def Shapes (reading : Reading) (options : ScanOptions) (before rest : List Char) : Prop :=
  ∃ raw after, rest = raw ++ after ∧ reading.len = raw.length ∧
    Lexeme options before reading.kind raw after

theorem shapes_star (after : List Char) :
    (star ('*' :: after)).Shapes options before ('*' :: after) := by
  by_cases hnext : after.head? = some '*'
  · obtain ⟨t, rfl⟩ := List.head?_eq_some_iff.1 hnext
    exact ⟨['*', '*'], t, rfl, rfl, .bold t⟩
  · rw [read_star hnext]
    exact ⟨['*'], after, rfl, rfl, .italic hnext⟩

theorem shapes_tilde (after : List Char) :
    (tilde index ('~' :: after)).Shapes options before ('~' :: after) := by
  by_cases hnext : after.head? = some '~'
  · obtain ⟨t, rfl⟩ := List.head?_eq_some_iff.1 hnext
    exact ⟨['~', '~'], t, rfl, rfl, .strikethrough t⟩
  · obtain ⟨hkind, hlen⟩ := tilde_of_ne index hnext
    exact ⟨['~'], after, rfl, hlen, hkind ▸ .loneTilde hnext⟩

theorem shapes_bang (after : List Char) :
    (bang index ('!' :: after)).Shapes options before ('!' :: after) := by
  by_cases hnext : after.head? = some '['
  · obtain ⟨t, rfl⟩ := List.head?_eq_some_iff.1 hnext
    exact ⟨['!', '['], t, rfl, rfl, .imageStart t⟩
  · obtain ⟨hkind, hlen⟩ := bang_of_ne index hnext
    exact ⟨['!'], after, rfl, hlen, hkind ▸ .loneBang hnext⟩

theorem shapes_openBracket (after : List Char) :
    (openBracket index ('[' :: after)).Shapes options before ('[' :: after) := by
  cases after with
  | nil => exact ⟨['['], [], rfl, rfl, .lastBracket⟩
  | cons c after => exact ⟨['['], c :: after, rfl, rfl, .linkStart (List.cons_ne_nil c after)⟩

theorem shapes_escape (after : List Char) :
    (escape index ('\\' :: after)).Shapes options before ('\\' :: after) := by
  cases after with
  | nil => exact ⟨['\\'], [], rfl, rfl, .lastBackslash⟩
  | cons c after =>
    obtain ⟨hkind, hlen⟩ := escape_cons index c after
    exact ⟨['\\', c], after, rfl, hlen, hkind ▸ .escape c after⟩

theorem shapes_closeBracketBefore (after : List Char)
    (hcovers : Covers lastParen index (']' :: after)) :
    (closeBracketBefore lastParen index (']' :: after)).Shapes options before (']' :: after) := by
  by_cases hnext : after.head? = some '('
  · obtain ⟨address, rfl⟩ := List.head?_eq_some_iff.1 hnext
    by_cases hparen : ')' ∈ address
    · obtain ⟨url, t, rfl, hurl⟩ := List.eq_append_cons_of_mem hparen
      have hwritten : ']' :: '(' :: (url ++ ')' :: t) = (Mark.address url).written ++ t := by
        simp [Mark.written]
      rw [hwritten] at hcovers ⊢
      obtain ⟨hkind, hlen⟩ := closeBracketBefore_address hurl hcovers
      exact ⟨(Mark.address url).written, t, rfl, hlen, hkind ▸ .address t hurl⟩
    · obtain ⟨hkind, hlen⟩ :=
        closeBracketBefore_openAddress lastParen index hparen
      exact ⟨[']', '('], address, rfl, hlen, hkind ▸ .openAddress hparen⟩
  · obtain ⟨hkind, hlen⟩ := closeBracketBefore_of_ne lastParen index hnext
    exact ⟨[']'], after, rfl, hlen, hkind ▸ .loneBracket hnext⟩

theorem shapes_code (after : List Char) :
    (code index ('`' :: after)).Shapes options before ('`' :: after) := by
  obtain ⟨body, hrest, hbody⟩ := exists_run ('`' :: after)
  have hfence : runLength ('`' :: after) ≠ 0 := by simp [runLength]
  generalize runLength ('`' :: after) = fence at hrest hfence
  rw [hrest]
  -- a fence that makes no code is text
  have hticks (hopen : body = [] ∨ fence < blockFence ∧ closing? fence body = none) :
      (code index (List.replicate fence '`' ++ body)).Shapes options before
        (List.replicate fence '`' ++ body) := by
    obtain ⟨hkind, hlen⟩ := code_ticks index hbody hopen
    rw [closing?_eq_none_iff hfence] at hopen
    exact ⟨_, body, rfl, by rw [hlen, List.length_replicate], hkind ▸ .ticks hfence hbody hopen⟩
  by_cases hempty : body = []
  · exact hticks (.inl hempty)
  cases hclose : closing? fence body with
  | some len =>
    obtain ⟨content, t, rfl, -, hne, hlast, hnext, hfree⟩ :=
      exists_of_closing?_eq_some hfence hbody hclose
    have hhead : content.head? ≠ some '`' := by
      obtain ⟨c, content, rfl⟩ := List.exists_cons_of_ne_nil hne
      simpa using hbody
    have hsplit : List.replicate fence '`' ++ (content ++ (List.replicate fence '`' ++ t)) =
        Markdown.fenced fence content ++ t := by
      simp [Markdown.fenced]
    rw [hsplit, read_code ⟨hfence, hne, hhead, hlast, hfree⟩ hnext]
    exact ⟨_, t, rfl, rfl,
      .code hfence hne hhead hlast ((closing?_eq_none_iff hfence).1 hfree) hnext⟩
  | none =>
    by_cases hshort : fence < blockFence
    · exact hticks (.inr ⟨hshort, hclose⟩)
    · obtain ⟨hkind, hlen⟩ := code_open index (Nat.not_lt.1 hshort) hempty hbody hclose
      exact ⟨_, [], (List.append_nil _).symm, hlen, hkind ▸ .openCode (Nat.not_lt.1 hshort) hempty hbody
        ((closing?_eq_none_iff hfence).1 hclose)⟩

theorem shapes_ruleFor {trigger : Trigger} (after : List Char)
    (hallowed : trigger = .underscore → underlineAllowed before.getLast? after.head?)
    (hcovers : Covers lastParen index (trigger.char :: after)) :
    ((Scan.ruleFor lastParen trigger).read index (trigger.char :: after)).Shapes options before
      (trigger.char :: after) := by
  cases trigger with
  | star => exact shapes_star after
  | tilde => exact shapes_tilde after
  | backtick => exact shapes_code after
  | backslash => exact shapes_escape after
  | underscore => exact ⟨['_'], after, rfl, rfl, .underline (hallowed rfl)⟩
  | bang => exact shapes_bang after
  | openBracket => exact shapes_openBracket after
  | closeBracket => exact shapes_closeBracketBefore after hcovers

end Reading

namespace Stretch

theorem Stands.lexeme {stretch : Stretch} (h : Stands options lastParen before after stretch)
    (hcovers : Covers lastParen (byteSize before) (stretch.raw ++ after)) :
    Lexeme options before stretch.kind stretch.raw after := by
  cases h with
  | plain hraw hnone =>
    refine .plain hraw (fun s c t hs => (Scan.construct?_eq_none_iff.1 (hnone s c t hs)).1) ?_
    rintro s t hs hne ⟨hon, hprev, scheme, d, u, hscheme, ht, hd⟩
    obtain ⟨c, t, rfl⟩ := List.exists_cons_of_ne_nil hne
    have hc : c = 'h' := by
      rcases hscheme with rfl | rfl <;> simp at ht <;> exact ht.1
    have hfree := (Scan.construct?_eq_none_iff.1 (hnone s c t hs)).2 hon hc hprev
    exact bareUrl?_eq_none_iff.1 hfree ⟨scheme, d, u, hscheme, ht, hd⟩
  | @construct c t _ hconstruct hlen =>
    rcases Scan.construct?_eq_some hconstruct with
      ⟨trigger, rfl, hallowed, rfl⟩ | ⟨hon, hprev, len, hurl, rfl⟩
    · obtain ⟨raw, rest, hsplit, hlen', hlexeme⟩ := shapes_ruleFor (t ++ after) hallowed hcovers
      rw [← List.cons_append] at hsplit
      obtain ⟨rfl, rfl⟩ := List.append_inj hsplit (hlen.symm.trans hlen')
      exact hlexeme
    · obtain ⟨scheme, target, rest, hscheme, htarget, hchars, hnext, hsplit, rfl⟩ :=
        bareUrl?_eq_some_iff.1 hurl
      rw [← List.cons_append] at hsplit
      obtain ⟨hraw, rfl⟩ := List.append_inj hsplit hlen.symm
      exact hraw ▸ .bareUrl hon hprev hscheme htarget hchars hnext

/-- Text that is plain starts no construct. -/
theorem Stands.construct_eq_none {stretch : Stretch}
    (h : Stands options lastParen before after stretch) (hkind : stretch.kind = .text)
    (hplain : PlainText stretch.raw) : stretch.construct = none := by
  cases h with
  | plain => rfl
  | @construct c t _ hconstruct hlen =>
    rcases Scan.construct?_eq_some hconstruct with ⟨trigger, rfl, hallowed, rfl⟩ | ⟨-, -, len, -, rfl⟩
    · have hchar : trigger.char = '_' := by
        refine hplain _ (List.mem_cons_self ..) ?_
        rw [isTrigger, Trigger.ofChar?_char]
        rfl
      cases trigger with
      | underscore => cases hkind
      | _ => cases hchar
    · cases hkind

end Stretch

/-! ### Every lexeme is read -/

namespace Lexeme

/-- What starts with a trigger is read by the rule of that trigger. -/
theorem exists_owned {t : List Char} (trigger : Trigger) (hraw : raw = trigger.char :: t)
    (hallowed : trigger = .underscore → underlineAllowed before.getLast? (t ++ after).head?)
    (hread : ((Scan.ruleFor lastParen trigger).read (byteSize before) (raw ++ after)).kind = kind ∧
      ((Scan.ruleFor lastParen trigger).read (byteSize before) (raw ++ after)).len = raw.length) :
    ∃ stretch : Stretch, stretch.piece = (kind, raw) ∧
      stretch.Stands options lastParen before after := by
  subst hraw
  obtain ⟨hkind, hlen⟩ := hread
  exact ⟨_, congrArg (·, _) hkind, .construct (Scan.construct?_trigger trigger hallowed) hlen⟩

theorem construct?_bareUrl {prev : Option Char} (hon : options.bareUrls)
    (hprev : ¬prev.any Unicode.isAlphanumeric) (hurl : bareUrl? ('h' :: rest) = some len) :
    Scan.construct? options lastParen prev index 'h' rest = some (.bareUrl len) := by
  have htrigger : Scan.trigger? prev 'h' rest.head? = none := by
    rw [Scan.trigger?_eq_none_iff]
    intro htrigger
    cases htrigger
  simp [Scan.construct?, htrigger, hon, hprev, hurl]

theorem exists_owned_backtick {fence : Nat} {t : List Char} (hfence : fence ≠ 0)
    (hraw : raw = List.replicate fence '`' ++ t)
    (hread : (Reading.code (byteSize before) (raw ++ after)).kind = kind ∧
      (Reading.code (byteSize before) (raw ++ after)).len = raw.length) :
    ∃ stretch : Stretch, stretch.piece = (kind, raw) ∧
      stretch.Stands options lastParen before after := by
  obtain ⟨n, rfl⟩ := Nat.exists_eq_succ_of_ne_zero hfence
  rw [List.replicate_succ, List.cons_append] at hraw
  exact exists_owned .backtick hraw (by simp) hread

theorem exists_stands (h : Lexeme options before kind raw after)
    (hcovers : Covers lastParen (byteSize before) (raw ++ after)) :
    ∃ stretch : Stretch, stretch.piece = (kind, raw) ∧
      stretch.Stands options lastParen before after := by
  cases h with
  | bold => exact exists_owned .star rfl (by simp) ⟨rfl, rfl⟩
  | italic hnext =>
    refine exists_owned .star rfl (by simp) ?_
    have hread : (Scan.ruleFor lastParen .star).read (byteSize before) (['*'] ++ after) =
      clean .italic 1 := read_star hnext
    rw [hread]
    exact ⟨rfl, rfl⟩
  | strikethrough => exact exists_owned .tilde rfl (by simp) ⟨rfl, rfl⟩
  | underline hallowed => exact exists_owned .underscore rfl (fun _ => hallowed) ⟨rfl, rfl⟩
  | escape c => exact exists_owned .backslash rfl (by simp) (escape_cons _ c after)
  | linkStart hafter =>
    obtain ⟨c, after, rfl⟩ := List.exists_cons_of_ne_nil hafter
    exact exists_owned .openBracket rfl (by simp) ⟨rfl, rfl⟩
  | imageStart => exact exists_owned .bang rfl (by simp) ⟨rfl, rfl⟩
  | address _ hurl =>
    exact exists_owned .closeBracket rfl (by simp) (closeBracketBefore_address hurl hcovers)
  | @code fence content _ hfence hcontent hhead hlast hfree hnext =>
    have hcode : Encloses fence content :=
      ⟨hfence, hcontent, hhead, hlast, (closing?_eq_none_iff hfence).2 hfree⟩
    refine exists_owned_backtick hfence (List.append_assoc ..) ?_
    rw [read_code hcode hnext]
    exact ⟨rfl, rfl⟩
  | @openCode fence content hfence hcontent hhead hfree =>
    have hpos := ne_zero_of_blockFence_le hfence
    refine exists_owned_backtick hpos rfl ?_
    rw [List.append_nil]
    exact code_open _ hfence hcontent hhead ((closing?_eq_none_iff hpos).2 hfree)
  | @bareUrl scheme target _ hon hprev hscheme htarget hchars hnext =>
    have hurl : bareUrl? (scheme ++ target ++ after) = some (scheme ++ target).length :=
      bareUrl?_eq_some_iff.2 ⟨scheme, target, after, hscheme, htarget, hchars, hnext, rfl, rfl⟩
    obtain ⟨u, hu⟩ : ∃ u, scheme = 'h' :: u := by
      rcases hscheme with rfl | rfl <;> exact ⟨_, rfl⟩
    subst hu
    refine ⟨⟨some (.bareUrl ('h' :: u ++ target).length), 'h' :: (u ++ target)⟩, rfl, .construct ?_ rfl⟩
    exact construct?_bareUrl hon hprev hurl
  | plain hraw htriggers hurls =>
    refine ⟨⟨none, raw⟩, rfl, .plain hraw fun s c t hs => ?_⟩
    refine Scan.construct?_eq_none_iff.2 ⟨htriggers s c t hs, fun hon hc hprev => ?_⟩
    rw [bareUrl?_eq_none_iff]
    exact fun hurl => hurls s (c :: t) hs (List.cons_ne_nil c t) ⟨hon, hprev, hurl⟩
  | loneTilde hnext => exact exists_owned .tilde rfl (by simp) (tilde_of_ne _ hnext)
  | loneBang hnext => exact exists_owned .bang rfl (by simp) (bang_of_ne _ hnext)
  | loneBracket hnext =>
    exact exists_owned .closeBracket rfl (by simp) (closeBracketBefore_of_ne _ _ hnext)
  | openAddress hparen =>
    exact exists_owned .closeBracket rfl (by simp) (closeBracketBefore_openAddress _ _ hparen)
  | lastBracket => exact exists_owned .openBracket rfl (by simp) ⟨rfl, rfl⟩
  | lastBackslash => exact exists_owned .backslash rfl (by simp) ⟨rfl, rfl⟩
  | @ticks n _ hn hnext hopen =>
    rw [← closing?_eq_none_iff hn] at hopen
    obtain ⟨hkind, hlen⟩ := code_ticks (byteSize before) hnext hopen
    refine exists_owned_backtick hn (List.append_nil _).symm ⟨hkind, ?_⟩
    rw [hlen, List.length_replicate]

end Lexeme

end InlineMarkup
