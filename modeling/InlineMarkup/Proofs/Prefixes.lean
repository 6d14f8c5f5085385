import InlineMarkup.Proofs.Lexemes
import InlineMarkup.Proofs.Shifting

/-! Prefixes: a text that ends in a white space, and about which there is nothing to say, is scanned
alike whatever comes after it. -/

namespace InlineMarkup

open Backtick Reading

variable {options : ScanOptions} {lastParen lastParen' : Option Nat} {prev : Option Char}
  {index : Nat} {before after rest : List Char}

/-! ### Rules -/

namespace Reading

theorem star_append (hafter : after ≠ []) (rest : List Char) :
    star ('*' :: (after ++ rest)) = star ('*' :: after) := by
  obtain ⟨d, t, rfl⟩ := List.exists_cons_of_ne_nil hafter
  by_cases hd : d = '*'
  · subst hd
    rfl
  · rw [read_star (by simpa using hd), read_star (by simpa using hd)]

theorem tilde_append (hclean : (tilde index ('~' :: after)).warning = none) (rest : List Char) :
    tilde index ('~' :: (after ++ rest)) = tilde index ('~' :: after) := by
  unfold tilde at hclean
  split at hclean
  · rename_i heq
    obtain ⟨_, rfl⟩ := List.cons_eq_cons.1 heq
    rfl
  · cases hclean

theorem bang_append (hclean : (bang index ('!' :: after)).warning = none) (rest : List Char) :
    bang index ('!' :: (after ++ rest)) = bang index ('!' :: after) := by
  unfold bang at hclean
  split at hclean
  · rename_i heq
    obtain ⟨_, rfl⟩ := List.cons_eq_cons.1 heq
    rfl
  · cases hclean

theorem openBracket_append (hafter : after ≠ []) (rest : List Char) :
    openBracket index ('[' :: (after ++ rest)) = openBracket index ('[' :: after) := by
  obtain ⟨d, t, rfl⟩ := List.exists_cons_of_ne_nil hafter
  rfl

theorem escape_append (hclean : (escape index ('\\' :: after)).warning = none) (rest : List Char) :
    escape index ('\\' :: (after ++ rest)) = escape index ('\\' :: after) := by
  cases after with
  | nil => cases hclean
  | cons d after =>
    by_cases hd : isTrigger d
    · simp only [escape, List.cons_append, if_pos hd]
    · simp only [escape, if_neg hd] at hclean
      cases hclean

/-- A closed code span or block has its fence before what comes after it. -/
theorem code_append (hspace : ('`' :: after).getLast?.all Unicode.isWhiteSpace)
    (hclean : (code index ('`' :: after)).warning = none) (rest : List Char) :
    code index ('`' :: (after ++ rest)) = code index ('`' :: after) := by
  obtain ⟨body, hrest, hbody⟩ := exists_run ('`' :: after)
  have hfence : runLength ('`' :: after) ≠ 0 := by simp [runLength]
  generalize runLength ('`' :: after) = fence at hrest hfence
  rw [← List.cons_append]
  rw [hrest] at hspace hclean ⊢
  simp only [code, runLength_replicate_append hbody, List.drop_left' (List.length_replicate ..)]
    at hclean
  split at hclean
  · cases hclean
  cases hclose : closing? fence body with
  | none =>
    simp only [hclose] at hclean
    split at hclean <;> cases hclean
  | some len =>
    obtain ⟨content, t, rfl, -, hne, hlast, hnext, hfree⟩ :=
      exists_of_closing?_eq_some hfence hbody hclose
    have hhead : content.head? ≠ some '`' := by
      obtain ⟨c, content, rfl⟩ := List.exists_cons_of_ne_nil hne
      simpa using hbody
    have hcode : Encloses fence content := ⟨hfence, hne, hhead, hlast, hfree⟩
    have ht : t ≠ [] := by
      rintro rfl
      obtain ⟨n, rfl⟩ := Nat.exists_eq_succ_of_ne_zero hfence
      rw [List.append_nil, List.replicate_succ', ← List.append_assoc, ← List.append_assoc,
        List.getLast?_concat] at hspace
      exact absurd hspace (by decide)
    have hsplit : List.replicate fence '`' ++ (content ++ (List.replicate fence '`' ++ t)) =
        Markdown.fenced fence content ++ t := by
      simp [Markdown.fenced]
    have hnext' : (t ++ rest).head? ≠ some '`' := by
      obtain ⟨d, t, rfl⟩ := List.exists_cons_of_ne_nil ht
      simpa using hnext
    rw [hsplit, List.append_assoc, read_code hcode hnext, read_code hcode hnext']

theorem closeBracketBefore_append (hcovers : Covers lastParen index (']' :: after))
    (hcovers' : Covers lastParen' index (']' :: (after ++ rest)))
    (hclean : (closeBracketBefore lastParen index (']' :: after)).warning = none) :
    closeBracketBefore lastParen' index (']' :: (after ++ rest)) =
      closeBracketBefore lastParen index (']' :: after) := by
  by_cases hnext : after.head? = some '('
  · obtain ⟨address, rfl⟩ := List.head?_eq_some_iff.1 hnext
    cases hparen : parenWithin? (lastParen.elim 0 (· + 1 - (index + 2))) address with
    | none =>
      simp only [closeBracketBefore, closeBracketWith, hparen] at hclean
      cases hclean
    | some len =>
      obtain ⟨url, t, rfl, hurl, -⟩ := exists_of_parenWithin?_go hparen
      have hwritten : ']' :: '(' :: (url ++ ')' :: t) = (Mark.address url).written ++ t := by
        simp [Mark.written]
      rw [← List.cons_append, hwritten, List.append_assoc] at hcovers'
      rw [hwritten] at hcovers hclean
      rw [read_address hurl hcovers] at hclean
      rw [← List.cons_append, hwritten, List.append_assoc, read_address hurl hcovers,
        read_address hurl hcovers']
      cases url with
      | nil => cases hclean
      | cons d url => rfl
  · unfold closeBracketBefore closeBracketWith at hclean
    split at hclean
    · rename_i heq
      obtain ⟨_, rfl⟩ := List.cons_eq_cons.1 heq
      exact absurd rfl hnext
    · cases hclean
    · cases hclean

/-- Where a rule has nothing to say about a text that ends in a white space, it reads the same however
that text goes on. -/
theorem read_append {trigger : Trigger}
    (hspace : (trigger.char :: after).getLast?.all Unicode.isWhiteSpace)
    (hcovers : Covers lastParen index (trigger.char :: after))
    (hcovers' : Covers lastParen' index (trigger.char :: (after ++ rest)))
    (hclean : ((Scan.ruleFor lastParen trigger).read index (trigger.char :: after)).warning = none) :
    (Scan.ruleFor lastParen' trigger).read index (trigger.char :: (after ++ rest)) =
      (Scan.ruleFor lastParen trigger).read index (trigger.char :: after) := by
  have hafter : after ≠ [] := by
    rintro rfl
    cases trigger <;> exact absurd hspace (by decide)
  cases trigger with
  | star => exact star_append hafter rest
  | tilde => exact tilde_append hclean rest
  | backtick => exact code_append hspace hclean rest
  | backslash => exact escape_append hclean rest
  | underscore => rfl
  | bang => exact bang_append hclean rest
  | openBracket => exact openBracket_append hafter rest
  | closeBracket => exact closeBracketBefore_append hcovers hcovers' hclean

theorem not_isUrlChar_of_isWhiteSpace {c : Char} (h : Unicode.isWhiteSpace c) : ¬isUrlChar c := by
  simp [isUrlChar, h]

theorem not_isWhiteSpace_of_mem_scheme {scheme : List Char} {c : Char}
    (h : scheme = "http://".toList ∨ scheme = "https://".toList) (hc : c ∈ scheme) :
    ¬Unicode.isWhiteSpace c := by
  have hall : ("http://".toList ++ "https://".toList).all (!Unicode.isWhiteSpace ·) := by decide
  have hmem : c ∈ "http://".toList ++ "https://".toList := by
    rcases h with rfl | rfl
    · exact List.mem_append_left _ hc
    · exact List.mem_append_right _ hc
  simpa using List.all_eq_true.1 hall c hmem

/-- An address that stands alone does not reach over a white space. -/
theorem bareUrl?_append {s : List Char} (hs : s ≠ [])
    (hspace : s.getLast?.all Unicode.isWhiteSpace) (rest : List Char) :
    bareUrl? (s ++ rest) = bareUrl? s := by
  cases hurl : bareUrl? s with
  | some len =>
    obtain ⟨scheme, target, t, hscheme, htarget, hchars, hnext, rfl, rfl⟩ := bareUrl?_eq_some_iff.1 hurl
    have ht : t ≠ [] := by
      rintro rfl
      obtain ⟨u, d, rfl⟩ := (List.eq_nil_or_concat target).resolve_left htarget
      rw [List.append_nil, List.concat_eq_append, ← List.append_assoc, List.getLast?_concat] at hspace
      exact not_isUrlChar_of_isWhiteSpace hspace (hchars d (by simp))
    refine bareUrl?_eq_some_iff.2 ⟨scheme, target, t ++ rest, hscheme, htarget, hchars, ?_, ?_, rfl⟩
    · obtain ⟨d, t, rfl⟩ := List.exists_cons_of_ne_nil ht
      exact hnext
    · rw [List.append_assoc]
  | none =>
    rw [bareUrl?_eq_none_iff] at hurl ⊢
    rintro ⟨scheme, c, t, hscheme, hsplit, hc⟩
    obtain ⟨u, d, rfl⟩ := (List.eq_nil_or_concat s).resolve_left hs
    rw [List.concat_eq_append] at hurl hspace hsplit
    rw [List.getLast?_concat] at hspace
    have hall : ∀ e ∈ scheme ++ [c], ¬Unicode.isWhiteSpace e := by
      intro e he
      rcases List.mem_append.1 he with he | he
      · exact not_isWhiteSpace_of_mem_scheme hscheme he
      · obtain rfl := List.mem_singleton.1 he
        exact fun hws => not_isUrlChar_of_isWhiteSpace hws hc
    -- the white space comes after the first character of the address
    have hsplit' : u ++ [d] ++ rest = scheme ++ [c] ++ t := by simpa using hsplit
    rcases Nat.le_total (u ++ [d]).length (scheme ++ [c]).length with hle | hle
    · have hstart : u ++ [d] <+: scheme ++ [c] :=
        List.prefix_of_prefix_length_le ⟨rest, rfl⟩ ⟨t, hsplit'.symm⟩ hle
      exact hall d (hstart.subset (by simp)) hspace
    · obtain ⟨v, hv⟩ : scheme ++ [c] <+: u ++ [d] :=
        List.prefix_of_prefix_length_le ⟨t, hsplit'.symm⟩ ⟨rest, rfl⟩ hle
      exact hurl ⟨scheme, c, v, hscheme, by rw [← hv]; simp, hc⟩

end Reading

/-! ### Constructs and stretches -/

namespace Scan

theorem not_isTrigger_of_isWhiteSpace {c : Char} (h : Unicode.isWhiteSpace c) : ¬isTrigger c := by
  have hall : Unicode.whiteSpace.all (!isTrigger ·) := by decide +kernel
  simpa using List.all_eq_true.1 hall c (List.contains_iff_mem.1 h)

/-- What starts at a scalar value is decided before the end of the text. -/
theorem construct?_append {c : Char} (hspace : (c :: after).getLast?.all Unicode.isWhiteSpace)
    (hcovers : Covers lastParen index (c :: after))
    (hcovers' : Covers lastParen' index (c :: (after ++ rest)))
    (hclean : ∀ construct ∈ construct? options lastParen prev index c after,
      construct.finding? index = none) :
    construct? options lastParen' prev index c (after ++ rest) =
      construct? options lastParen prev index c after := by
  have htrigger : trigger? prev c (after ++ rest).head? = trigger? prev c after.head? := by
    cases after with
    | nil =>
      have hc : ¬isTrigger c := not_isTrigger_of_isWhiteSpace hspace
      rw [trigger?_eq_none_iff.2 fun h => absurd h hc, trigger?_eq_none_iff.2 fun h => absurd h hc]
    | cons d after => rfl
  unfold construct? at hclean ⊢
  rw [htrigger]
  split at hclean
  · rename_i trigger hfound
    obtain ⟨hchar, -⟩ := Option.filter_eq_some_iff.1 hfound
    obtain rfl := Trigger.char_of_ofChar? hchar
    have hwarning := Option.map_eq_none_iff.1 (hclean _ rfl)
    simp only [Reading.read_append hspace hcovers hcovers' hwarning]
  · simp only [← List.cons_append, Reading.bareUrl?_append (List.cons_ne_nil c after) hspace]

end Scan

namespace Stretch

variable {stretch : Stretch} {ts : List Stretch} {x y : List Char}

theorem all_getLast?_of_append {p : Char → Bool} {s t : List Char} (h : (s ++ t).getLast?.all p) :
    t.getLast?.all p := by
  cases t with
  | nil => rfl
  | cons c t => rwa [List.getLast?_append_of_ne_nil _ (List.cons_ne_nil c t)] at h

/-- A stretch about which there is nothing to say is passed over alike however the text goes on. -/
theorem Stands.append (h : Stands options lastParen before after stretch)
    (hspace : (stretch.raw ++ after).getLast?.all Unicode.isWhiteSpace)
    (hcovers : Covers lastParen (byteSize before) (stretch.raw ++ after))
    (hcovers' : Covers lastParen' (byteSize before) (stretch.raw ++ (after ++ rest)))
    (hclean : stretch.construct.bind (·.finding? (byteSize before)) = none) :
    Stands options lastParen' before (after ++ rest) stretch := by
  cases h with
  | @plain raw hraw hnone =>
    refine .plain hraw fun s c t hs => ?_
    have hfree := hnone s c t hs
    subst hs
    simp only [List.append_assoc, List.cons_append] at hspace hcovers hcovers'
    have hcovers := hcovers.drop
    have hcovers' := hcovers'.drop
    rw [← byteSize_append, ← List.append_assoc t] at hcovers'
    rw [← byteSize_append] at hcovers
    rw [Scan.constructAfter?] at hfree ⊢
    rw [← List.append_assoc, Scan.construct?_append (all_getLast?_of_append hspace) hcovers hcovers'
      (by rw [hfree]; simp), hfree]
  | @construct c t construct hconstruct hlen =>
    refine .construct ?_ hlen
    rw [List.cons_append] at hspace hcovers hcovers'
    rw [← List.append_assoc] at hcovers' ⊢
    rw [Scan.constructAfter?] at hconstruct ⊢
    rw [Scan.construct?_append hspace hcovers hcovers', hconstruct]
    rintro _ hmem
    rw [hconstruct] at hmem
    obtain rfl := Option.some.inj hmem
    exact hclean

/-- Plain text beside plain text is one plain text. -/
theorem Stands.join (hx : Stands options lastParen before (y ++ after) ⟨none, x⟩)
    (hy : Stands options lastParen (before ++ x) after ⟨none, y⟩) :
    Stands options lastParen before after ⟨none, x ++ y⟩ := by
  cases hx with
  | plain hraw hnone =>
    cases hy with
    | plain _ hnone' =>
      refine .plain (by simp [hraw]) fun s c t hs => ?_
      rcases List.append_eq_append_iff.1 hs with ⟨u, rfl, hu⟩ | ⟨u, rfl, hu⟩
      · rw [← List.append_assoc]
        exact hnone' u c t hu
      · cases u with
        | nil => simpa using hnone' [] c t hu.symm
        | cons d u =>
          obtain ⟨rfl, rfl⟩ := List.cons_eq_cons.1 hu
          simpa using hnone s c u rfl

/-- What is passed over without a finding before a white space is passed over alike when the text goes
on, as long as no plain text comes to stand beside another one. -/
theorem Passed.extend (ss xs : List Stretch)
    (h : Passed options lastParen before (ss ++ xs))
    (hspace : ((ss ++ xs).flatMap raw).getLast?.all Unicode.isWhiteSpace)
    (hcovers : Covers lastParen (byteSize before) ((ss ++ xs).flatMap raw))
    (hcovers' : Covers lastParen' (byteSize before) ((ss ++ xs).flatMap raw ++ rest))
    (hclean : findingsFrom (byteSize before) (ss ++ xs) = [])
    (hts : Passed options lastParen' (before ++ ss.flatMap raw) ts)
    (htext : ts.flatMap raw = xs.flatMap raw ++ rest)
    (hmeet : ∀ last ∈ ss.getLast?, last.construct = none → ∀ next ∈ ts.head?, next.construct ≠ none) :
    Passed options lastParen' before (ss ++ ts) := by
  induction ss generalizing before with
  | nil => simpa using hts
  | cons stretch ss ih =>
    rw [List.cons_append] at h hclean ⊢
    obtain ⟨hstands, hnext, hmore⟩ := h
    obtain ⟨hfirst, hothers⟩ := List.append_eq_nil_iff.1 hclean
    rw [List.cons_append, List.flatMap_cons] at hspace hcovers hcovers'
    rw [List.append_assoc] at hcovers'
    refine ⟨?_, ?_, ?_⟩
    · have hrest : (ss ++ ts).flatMap raw = (ss ++ xs).flatMap raw ++ rest := by
        simp [htext]
      rw [hrest]
      exact hstands.append hspace hcovers hcovers' (by simpa using hfirst)
    · cases ss with
      | nil => exact hmeet stretch rfl
      | cons other ss => exact hnext
    · refine ih hmore (all_getLast?_of_append hspace) ?_ ?_ ?_ (by simpa using hts) ?_
      · rw [byteSize_append]
        exact hcovers.drop
      · rw [byteSize_append]
        exact hcovers'.drop
      · rwa [byteSize_append]
      · cases ss with
        | nil => simp
        | cons other ss => simpa using hmeet

end Stretch

end InlineMarkup
