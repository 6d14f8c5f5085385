import InlineMarkup.Proofs.ByteSearch
import InlineMarkup.Proofs.Fences

/-! Handlers: what they make of the bytes of a text is what the rules make of its characters. -/

namespace InlineMarkup

variable {c d : Char} {before after raw rest text : List Char} {index len : Nat}
  {warnings : Array Warning}

namespace Handler

/-! ### What is taken from a text -/

theorem take?_append (warnings : Array Warning) (kind : TokenKind) (before raw after : List Char) :
    take? (before ++ (raw ++ after)) (byteSize before) warnings kind (byteSize raw) =
      some ⟨⟨kind, byteSize before, raw⟩, byteSize raw, warnings⟩ := by
  rw [take?, Token.cut?_append, Option.map_some]

theorem take?_eq_none (warnings : Array Warning) (kind : TokenKind)
    (h : (dropBytes? index text).bind (dropBytes? len) = none) :
    take? text index warnings kind len = none := by
  cases hrest : dropBytes? index text with
  | none => simp [take?, Token.cut?, slice?, hrest]
  | some rest =>
    rw [hrest, Option.bind_some] at h
    simp [take?, Token.cut?, slice?, hrest, h]

theorem take?_one_eq_none (before : List Char) (warnings : Array Warning) (kind : TokenKind)
    (h : ¬Rule.startsNarrow rest) :
    take? (before ++ rest) (byteSize before) warnings kind 1 = none := by
  refine take?_eq_none warnings kind ?_
  rw [dropBytes?_append, Option.bind_some, dropBytes?_one h]

theorem unexpectedIn_append (kind : TokenKind) (before rest : List Char) (expected : String)
    (found : Option Char) (suggestion : Option String) :
    Warning.unexpectedIn kind (before ++ rest) (byteSize before) expected found suggestion =
      .unexpected kind (byteSize before) rest expected found suggestion := by
  cases found <;>
    simp [Warning.unexpectedIn, Warning.unexpected, Warning.inText, Warning.before, dropBytes?_append]

theorem inText_append (kind : TokenKind) (issue : Issue) (before rest : List Char) (description : String)
    (suggestion : Option String) :
    Warning.inText kind issue (before ++ rest) (byteSize before) description suggestion =
      .before kind issue (byteSize before) rest description suggestion := by
  rw [Warning.inText, dropBytes?_append, Option.bind_some, Warning.before]

theorem inText_next (before after : List Char) (hc : c.utf8Size = 1) (kind : TokenKind) (issue : Issue)
    (description : String) (suggestion : Option String) :
    Warning.inText kind issue (before ++ c :: after) (byteSize before + 1) description suggestion =
      .before kind issue (byteSize before + 1) after description suggestion := by
  rw [Warning.inText, dropBytes?_next before after hc, Option.bind_some, Warning.before]

end Handler

/-- What a handler gives that has read a token and a warning. -/
def Handled.ofRead (warnings : Array Warning) (read : Token × Option Warning) : Handled :=
  ⟨read.1, read.1.byteLen, warnings ++ read.2.toArray⟩

/-! ### The rules -/

namespace Rule

theorem readAt?_append (rule : Rule) (before rest : List Char)
    (h : rule.applies (byteSize before) rest) : rule.readAt? (before ++ rest) (byteSize before) =
      some ((rule.read (byteSize before) rest).token (byteSize before) rest,
        (rule.read (byteSize before) rest).warning) := by
  simp only [readAt?, dropBytes?_append, guard, if_pos h, Option.bind_eq_bind, Option.bind_some,
    Option.pure_def]

theorem readAt?_eq_none (rule : Rule) (before rest : List Char)
    (h : ¬rule.applies (byteSize before) rest) :
    rule.readAt? (before ++ rest) (byteSize before) = none := by
  rw [readAt?, dropBytes?_append, Option.bind_eq_bind, Option.bind_some, guard, if_neg h]
  rfl

/-- Whether the handler of a rule makes of `rest` after `before` what the rule does. -/
def HandlesAt (rule : Rule) (before rest : List Char) (warnings : Array Warning) : Prop :=
  rule.handle? (before ++ rest) (byteSize before) warnings =
    (rule.readAt? (before ++ rest) (byteSize before)).map (.ofRead warnings)

/-- A handler takes the bytes of the token that its rule reads. -/
theorem handlesAt_of_take? {rule : Rule} {reading : Reading} (hsplit : rest = raw ++ after)
    (hread : rule.read (byteSize before) rest = reading) (happlies : rule.applies (byteSize before) rest)
    (hlen : reading.len = raw.length) (hstride : byteSize raw = len)
    (h : rule.handle? (before ++ rest) (byteSize before) warnings =
      Handler.take? (before ++ rest) (byteSize before) (warnings ++ reading.warning.toArray)
        reading.kind len) :
    rule.HandlesAt before rest warnings := by
  subst hsplit hstride
  rw [HandlesAt, h, Handler.take?_append, readAt?_append rule before _ happlies, hread, Option.map_some,
    Reading.token, hlen, List.take_left' rfl]
  rfl

/-- A token of one narrow character. -/
theorem handlesAt_of_take?_one {rule : Rule} {reading : Reading} (hc : c.utf8Size = 1)
    (hread : rule.read (byteSize before) (c :: after) = reading)
    (happlies : rule.applies (byteSize before) (c :: after)) (hlen : reading.len = 1)
    (h : rule.handle? (before ++ c :: after) (byteSize before) warnings =
      Handler.take? (before ++ c :: after) (byteSize before) (warnings ++ reading.warning.toArray)
        reading.kind 1) :
    rule.HandlesAt before (c :: after) warnings := by
  have hsplit : c :: after = [c] ++ after := rfl
  exact handlesAt_of_take? hsplit hread happlies hlen hc h

/-- A token of two narrow characters. -/
theorem handlesAt_of_take?_two {rule : Rule} {reading : Reading} (hc : c.utf8Size = 1)
    (hd : d.utf8Size = 1) (hread : rule.read (byteSize before) (c :: d :: after) = reading)
    (happlies : rule.applies (byteSize before) (c :: d :: after)) (hlen : reading.len = 2)
    (h : rule.handle? (before ++ c :: d :: after) (byteSize before) warnings =
      Handler.take? (before ++ c :: d :: after) (byteSize before) (warnings ++ reading.warning.toArray)
        reading.kind 2) :
    rule.HandlesAt before (c :: d :: after) warnings := by
  have hsplit : c :: d :: after = [c, d] ++ after := rfl
  have hsize : byteSize [c, d] = 2 := byteSize_append_two [] hc hd
  exact handlesAt_of_take? hsplit hread happlies hlen hsize h

/-- A narrow character that starts nothing. -/
theorem handlesAt_of_degraded {rule : Rule} {warning : Warning} (hc : c.utf8Size = 1)
    (hread : rule.read (byteSize before) (c :: after) = .degraded 1 warning)
    (happlies : rule.applies (byteSize before) (c :: after))
    (h : rule.handle? (before ++ c :: after) (byteSize before) warnings =
      Handler.take? (before ++ c :: after) (byteSize before) (warnings.push warning) .text 1) :
    rule.HandlesAt before (c :: after) warnings := by
  refine handlesAt_of_take?_one hc hread happlies rfl ?_
  rw [h, ← Array.append_singleton]
  rfl

theorem handlesAt_of_none {rule : Rule} (happlies : ¬rule.applies (byteSize before) rest)
    (h : rule.handle? (before ++ rest) (byteSize before) warnings = none) :
    rule.HandlesAt before rest warnings := by
  rw [HandlesAt, h, readAt?_eq_none rule before rest happlies, Option.map_none]

end Rule

namespace Handler

open Reading

theorem handlesAt_star (before rest : List Char) (warnings : Array Warning) :
    Rule.star.HandlesAt before rest warnings := by
  by_cases hrest : Rule.startsNarrow rest
  · obtain ⟨c, after, rfl, hc⟩ := exists_of_startsNarrow hrest
    have hbyte := getElem?_next before after hc
    by_cases hnext : after.head? = some '*'
    · obtain ⟨t, rfl⟩ := List.head?_eq_some_iff.1 hnext
      refine Rule.handlesAt_of_take?_two hc rfl rfl hrest rfl ?_
      rw [Rule.handle?, star, if_pos (hbyte.trans ((head?_utf8Bytes_iff rfl).2 rfl))]
      rfl
    · have hread : Reading.star (c :: after) = clean .italic 1 := by
        unfold Reading.star
        split
        · rename_i heq
          obtain ⟨-, rfl⟩ := List.cons_eq_cons.1 heq
          exact absurd rfl hnext
        · rfl
      refine Rule.handlesAt_of_take?_one hc hread hrest rfl ?_
      rw [Rule.handle?, star, hbyte, if_neg (mt (head?_utf8Bytes_iff rfl).1 hnext)]
      rfl
  · refine Rule.handlesAt_of_none hrest ?_
    rw [Rule.handle?, star, if_neg (getElem?_of_not_startsNarrow before hrest rfl),
      take?_one_eq_none _ _ _ hrest]

theorem handlesAt_tilde (before rest : List Char) (warnings : Array Warning) :
    Rule.tilde.HandlesAt before rest warnings := by
  by_cases hrest : Rule.startsNarrow rest
  · obtain ⟨c, after, rfl, hc⟩ := exists_of_startsNarrow hrest
    have hbyte := getElem?_next before after hc
    by_cases hnext : after.head? = some '~'
    · obtain ⟨t, rfl⟩ := List.head?_eq_some_iff.1 hnext
      refine Rule.handlesAt_of_take?_two hc rfl rfl hrest rfl ?_
      rw [Rule.handle?, tilde, if_pos (hbyte.trans ((head?_utf8Bytes_iff rfl).2 rfl))]
      rfl
    · have hread : Reading.tilde (byteSize before) (c :: after) = degraded 1 (.unexpected .strikethrough
          (byteSize before) (c :: after) "`~~`" after.head?
          "use `~~` for strikethrough or escape the tilde as `\\~`") := by
        unfold Reading.tilde
        split
        · rename_i heq
          obtain ⟨-, rfl⟩ := List.cons_eq_cons.1 heq
          exact absurd rfl hnext
        · rw [List.getElem?_cons_succ, ← List.head?_eq_getElem?]
      refine Rule.handlesAt_of_degraded hc hread hrest ?_
      rw [Rule.handle?, tilde, hbyte, if_neg (mt (head?_utf8Bytes_iff rfl).1 hnext),
        charAt?_next before after hc, unexpectedIn_append]
  · refine Rule.handlesAt_of_none hrest ?_
    rw [Rule.handle?, tilde, if_neg (getElem?_of_not_startsNarrow before hrest rfl),
      take?_one_eq_none _ _ _ hrest]

theorem handlesAt_underscore (before rest : List Char) (warnings : Array Warning) :
    Rule.underscore.HandlesAt before rest warnings := by
  by_cases hrest : Rule.startsNarrow rest
  · obtain ⟨c, after, rfl, hc⟩ := exists_of_startsNarrow hrest
    exact Rule.handlesAt_of_take?_one hc rfl hrest rfl rfl
  · exact Rule.handlesAt_of_none hrest (take?_one_eq_none before warnings _ hrest)

theorem handlesAt_bang (before rest : List Char) (warnings : Array Warning) :
    Rule.bang.HandlesAt before rest warnings := by
  by_cases hrest : Rule.startsNarrow rest
  · obtain ⟨c, after, rfl, hc⟩ := exists_of_startsNarrow hrest
    have hchar := charAt?_next before after hc
    by_cases hnext : after.head? = some '['
    · obtain ⟨t, rfl⟩ := List.head?_eq_some_iff.1 hnext
      refine Rule.handlesAt_of_take?_two hc rfl rfl hrest rfl ?_
      rw [Rule.handle?, bang, hchar, if_pos hnext]
      rfl
    · have hread : Reading.bang (byteSize before) (c :: after) = degraded 1 (.unexpected .imageStart
          (byteSize before) (c :: after) "`[` after `!`" after.head?
          "start an image with `![` or escape the mark as `\\!`") := by
        unfold Reading.bang
        split
        · rename_i heq
          obtain ⟨-, rfl⟩ := List.cons_eq_cons.1 heq
          exact absurd rfl hnext
        · rw [List.getElem?_cons_succ, ← List.head?_eq_getElem?]
      refine Rule.handlesAt_of_degraded hc hread hrest ?_
      rw [Rule.handle?, bang, hchar, if_neg hnext, unexpectedIn_append]
  · refine Rule.handlesAt_of_none hrest ?_
    rw [Rule.handle?, bang, charAt?_of_not_startsNarrow before hrest, if_neg nofun,
      take?_one_eq_none _ _ _ hrest]

theorem handlesAt_openBracket (before rest : List Char) (warnings : Array Warning) :
    Rule.openBracket.HandlesAt before rest warnings := by
  by_cases hrest : Rule.startsNarrow rest
  · obtain ⟨c, after, rfl, hc⟩ := exists_of_startsNarrow hrest
    cases after with
    | nil =>
      refine Rule.handlesAt_of_degraded hc rfl hrest ?_
      rw [Rule.handle?, openBracket, if_neg (by simp [hc]), unexpectedIn_append]
    | cons d after =>
      have hpos := d.utf8Size_pos
      refine Rule.handlesAt_of_take?_one hc rfl hrest rfl ?_
      rw [Rule.handle?, openBracket, if_pos (by simp [hc]; omega)]
      rfl
  · refine Rule.handlesAt_of_none hrest ?_
    rw [Rule.handle?, openBracket]
    split <;> exact take?_one_eq_none before _ _ hrest

theorem handlesAt_escape (before rest : List Char) (warnings : Array Warning) :
    Rule.escape.HandlesAt before rest warnings := by
  by_cases hrest : Rule.startsNarrow rest
  · obtain ⟨c, after, rfl, hc⟩ := exists_of_startsNarrow hrest
    have hchar := charAt?_next before after hc
    cases after with
    | nil =>
      refine Rule.handlesAt_of_degraded hc rfl hrest ?_
      rw [Rule.handle?, escape, hchar]
      simp only [List.head?_nil, inText_append]
    | cons d after =>
      have hsplit : c :: d :: after = [c, d] ++ after := rfl
      have hsize : byteSize [c, d] = 1 + d.utf8Size := by simp [hc]
      by_cases hd : isTrigger d
      · have hread : Reading.escape (byteSize before) (c :: d :: after) = clean .escape 2 := if_pos hd
        refine Rule.handlesAt_of_take? hsplit hread hrest rfl hsize ?_
        rw [Rule.handle?, escape, hchar]
        simp only [List.head?_cons, if_pos hd]
        rfl
      · have hread : Reading.escape (byteSize before) (c :: d :: after) = ⟨.escape, 2,
            some (.before .escape .redundantEscape (byteSize before) (c :: d :: after)
              s!"`{d}` has no special meaning and does not need escaping"
              s!"write `{d}` without the backslash")⟩ := if_neg hd
        refine Rule.handlesAt_of_take? hsplit hread hrest rfl hsize ?_
        rw [Rule.handle?, escape, hchar]
        simp only [List.head?_cons, if_neg hd, inText_append, ← Array.append_singleton]
        rfl
  · refine Rule.handlesAt_of_none hrest ?_
    rw [Rule.handle?, escape, charAt?_of_not_startsNarrow before hrest]
    exact take?_one_eq_none before _ _ hrest

/-- Whether the end of an address is looked for within the text. -/
theorem applies_closeBracketBefore_iff {lastParen : Option Nat} {address : List Char}
    (hc : c.utf8Size = 1) :
    (Rule.closeBracketBefore lastParen).applies (byteSize before) (c :: '(' :: address) ↔
      ∀ last ∈ lastParen, last < byteSize (before ++ c :: '(' :: address) := by
  cases lastParen <;> simp [Rule.applies, Rule.startsNarrow, hc]

/-- What the handler of a closing bracket makes of the bracket before an address. -/
theorem closeBracketBefore_append {lastParen : Option Nat} (before address : List Char)
    (warnings : Array Warning) (hc : c.utf8Size = 1)
    (hlast : ∀ last ∈ lastParen, last < byteSize (before ++ c :: '(' :: address)) :
    closeBracketBefore (before ++ c :: '(' :: address) (byteSize before) warnings lastParen =
      let take := take? (before ++ c :: '(' :: address) (byteSize before)
      match parenWithin? (lastParen.elim 0 (· + 1 - (byteSize before + 2))) address with
      | none =>
        take (warnings.push (.unexpected .address (byteSize before) (c :: '(' :: address)
          "`)` closing the address" none "close the link address with `)`")) .text 2
      | some len =>
        take (if byteSize (address.take len) = 0 then warnings.push (.before .address .malformedLink
            (byteSize before + 1) ('(' :: address) "link address is empty"
            "put the target between the parentheses") else warnings)
          .address (byteSize (address.take len) + 3) := by
  -- the address stands behind two narrow characters, and the mark that opens it behind one
  have hbyte : (utf8Bytes (before ++ c :: '(' :: address))[byteSize before + 1]? = some '('.toUInt8 :=
    getElem?_next before _ hc
  have hsplit : before ++ c :: '(' :: address = (before ++ [c, '(']) ++ address := by simp
  have hsize : byteSize (before ++ [c, '(']) = byteSize before + 2 := byteSize_append_two before hc rfl
  have hparen := parenAfter?_append (before ++ [c, '(']) address (hsplit ▸ hlast)
  rw [← hsplit, hsize] at hparen
  rw [closeBracketBefore, hbyte]
  simp only [if_neg (not_not_intro rfl), hparen, Option.bind_eq_bind, Option.bind_some,
    unexpectedIn_append, inText_next before _ hc]
  cases parenWithin? (lastParen.elim 0 (· + 1 - (byteSize before + 2))) address <;> rfl

theorem handlesAt_address {lastParen : Option Nat} (before address : List Char)
    (warnings : Array Warning) (hc : c.utf8Size = 1)
    (hlast : ∀ last ∈ lastParen, last < byteSize (before ++ c :: '(' :: address)) :
    (Rule.closeBracketBefore lastParen).HandlesAt before (c :: '(' :: address) warnings := by
  have happlies := (applies_closeBracketBefore_iff hc).2 hlast
  have hhandle : (Rule.closeBracketBefore lastParen).handle? (before ++ c :: '(' :: address)
      (byteSize before) warnings = _ := closeBracketBefore_append before address warnings hc hlast
  have hread : (Rule.closeBracketBefore lastParen).read (byteSize before) (c :: '(' :: address) =
      addressTo (byteSize before) (c :: '(' :: address)
        (parenWithin? (lastParen.elim 0 (· + 1 - (byteSize before + 2))) address) := rfl
  cases hfound : parenWithin? (lastParen.elim 0 (· + 1 - (byteSize before + 2))) address with
  | none =>
    rw [hfound] at hread hhandle
    refine Rule.handlesAt_of_take?_two hc rfl hread happlies rfl ?_
    rw [hhandle, ← Array.append_singleton]
    rfl
  | some len =>
    rw [hfound] at hread hhandle
    obtain ⟨url, t, rfl, -, rfl⟩ := exists_of_parenWithin?_go hfound
    have hraw : c :: '(' :: (url ++ ')' :: t) = (c :: '(' :: (url ++ [')'])) ++ t := by simp
    have hstride : byteSize (c :: '(' :: (url ++ [')'])) = byteSize url + 3 := by
      have hopen : '('.utf8Size = 1 := rfl
      have hclose : ')'.utf8Size = 1 := rfl
      simp only [byteSize_cons, byteSize_append, byteSize_nil, hc, hopen, hclose]
      omega
    simp only [Nat.zero_add, List.take_left' rfl] at hread hhandle
    cases url with
    | nil =>
      refine Rule.handlesAt_of_take? hraw hread happlies rfl hstride ?_
      rw [hhandle, byteSize_nil, if_pos rfl, ← Array.append_singleton]
      rfl
    | cons d url =>
      have hpos := byteSize_pos (List.cons_ne_nil d url)
      refine Rule.handlesAt_of_take? hraw hread happlies (by simp [addressTo, clean]) hstride ?_
      rw [hhandle, if_neg (Nat.ne_of_gt hpos)]
      rfl

theorem handlesAt_closeBracketBefore (before rest : List Char) (warnings : Array Warning)
    (lastParen : Option Nat) :
    (Rule.closeBracketBefore lastParen).HandlesAt before rest warnings := by
  by_cases hrest : Rule.startsNarrow rest
  · obtain ⟨c, after, rfl, hc⟩ := exists_of_startsNarrow hrest
    have hbyte := getElem?_next before after hc
    by_cases hnext : after.head? = some '('
    · obtain ⟨address, rfl⟩ := List.head?_eq_some_iff.1 hnext
      by_cases hlast : ∀ last ∈ lastParen, last < byteSize (before ++ c :: '(' :: address)
      · exact handlesAt_address before address warnings hc hlast
      · refine Rule.handlesAt_of_none (mt (applies_closeBracketBefore_iff hc).1 hlast) ?_
        simp only [not_forall, Nat.not_lt] at hlast
        obtain ⟨last, rfl, hle⟩ := hlast
        have hsplit : before ++ c :: '(' :: address = (before ++ [c, '(']) ++ address := by simp
        rw [hsplit] at hle
        have hparen := parenAfter?_eq_none hle
        rw [← hsplit, byteSize_append_two before hc rfl] at hparen
        rw [Rule.handle?, closeBracketBefore, hbyte, (head?_utf8Bytes_iff rfl).2 hnext]
        simp only [if_neg (not_not_intro rfl), hparen]
        rfl
    · have happlies : (Rule.closeBracketBefore lastParen).applies (byteSize before) (c :: after) := by
        simp [Rule.applies, hrest, ← List.head?_eq_getElem?, hnext]
      cases after with
      | nil =>
        refine Rule.handlesAt_of_degraded hc rfl happlies ?_
        rw [Rule.handle?, closeBracketBefore, hbyte]
        simp only [utf8Bytes_nil, List.head?_nil, unexpectedIn_append]
      | cons d after =>
        have hd : d ≠ '(' := by simpa using hnext
        have hread : (Rule.closeBracketBefore lastParen).read (byteSize before) (c :: d :: after) =
            degraded 1 (.unexpected .address (byteSize before) (c :: d :: after) "`(` after `]`" (some d)
              "follow the link text with `(url)` or escape it as `\\]`") := by
          rw [Rule.read, Reading.closeBracketBefore, closeBracketWith]
          exact hd
        obtain ⟨byte, bytes, hbytes⟩ := utf8EncodeChar_eq_cons d
        have hne : byte ≠ '('.toUInt8 := by
          rintro rfl
          exact hd ((toUInt8_mem_utf8EncodeChar_iff rfl).1 (hbytes ▸ List.mem_cons_self))
        rw [utf8Bytes_cons, hbytes, List.cons_append, List.head?_cons] at hbyte
        refine Rule.handlesAt_of_degraded hc hread happlies ?_
        rw [Rule.handle?, closeBracketBefore, hbyte]
        simp only [if_pos hne, charAt?_next before _ hc, List.head?_cons, unexpectedIn_append]
  · refine Rule.handlesAt_of_none (by simp [Rule.applies, hrest]) ?_
    have hparen := getElem?_of_not_startsNarrow (d := '(') before hrest rfl
    rw [Rule.handle?, closeBracketBefore]
    cases hbyte : (utf8Bytes (before ++ rest))[byteSize before + 1]? with
    | none => exact take?_one_eq_none before _ _ hrest
    | some byte =>
      have hne : byte ≠ '('.toUInt8 := by
        rintro rfl
        exact hparen hbyte
      simp only [if_pos hne]
      exact take?_one_eq_none before _ _ hrest

open Backtick

/-- What the handler of a backtick makes of a run of them before `body`. -/
theorem code_append (before : List Char) (warnings : Array Warning) {fence : Nat} {body : List Char}
    (hbody : body.head? ≠ some '`') :
    code (before ++ (List.replicate fence '`' ++ body)) (byteSize before) warnings =
      let rest := List.replicate fence '`' ++ body
      let take := take? (before ++ rest) (byteSize before)
      let warn := fun kind issue => Warning.before kind issue (byteSize before) rest
      let closer := String.ofList (List.replicate fence '`')
      if body = [] then
        take (warnings.push (warn .codeInline .malformedCodeSequence
          s!"a run of {fence} backtick(s) with no content" "escape the backticks with `\\``")) .text fence
      else
        match closing? fence body with
        | some len => take warnings (if blockFence ≤ fence then .codeBlock else .codeInline)
            (fence + byteSize (body.take len))
        | none =>
          if fence < blockFence then
            take (warnings.push (warn .codeInline .unclosedTag
              s!"no closing run of exactly {fence} backtick(s)"
              s!"close the code span with {closer}")) .text fence
          else
            take (warnings.push (warn .codeBlock .unclosedTag
              s!"code block fenced with {fence} backticks is never closed"
              s!"close the code block with {closer}")) .codeBlock
              (fence + byteSize body) := by
  generalize htext : before ++ (List.replicate fence '`' ++ body) = text
  have hlength : (utf8Bytes text).length = byteSize before + (fence + byteSize body) := by
    rw [length_utf8Bytes, ← htext, byteSize_append, byteSize_append, byteSize_replicate]
  have hrun : tickRun ((utf8Bytes text).drop (byteSize before)) = fence := by
    rw [← htext, drop_utf8Bytes, tickRun_utf8Bytes, runLength_replicate_append hbody]
  have hrest : (utf8Bytes text).drop (byteSize before + fence) = utf8Bytes body := by
    have hopened := drop_utf8Bytes (before ++ List.replicate fence '`') body
    rwa [byteSize_append, byteSize_replicate, List.append_assoc, htext] at hopened
  have hend : byteSize before + fence = byteSize before + (fence + byteSize body) ↔ body = [] := by
    cases body with
    | nil => simp
    | cons c body =>
      have hpos := byteSize_pos (List.cons_ne_nil c body)
      simp only [List.cons_ne_nil, iff_false]
      omega
  have hinside : byteSize before ≤ (utf8Bytes text).length := hlength ▸ Nat.le_add_right ..
  have hwarn (kind : TokenKind) (issue : Issue) (description : String) (suggestion : Option String) :
      Warning.inText kind issue text (byteSize before) description suggestion =
        .before kind issue (byteSize before) (List.replicate fence '`' ++ body) description suggestion := by
    rw [← htext, inText_append]
  rw [code]
  dsimp only
  rw [guard, if_pos hinside]
  simp only [hlength, Option.pure_def, Option.bind_eq_bind, Option.bind_some, hrun, hend, hrest,
    closingRun?_utf8Bytes, hwarn, Nat.add_sub_cancel_left]
  split
  · rw [htext]
  · rw [htext]
    cases closing? fence body with
    | none => rfl
    | some len =>
      have hstride : byteSize before + fence + byteSize (body.take len) - byteSize before =
          fence + byteSize (body.take len) := by omega
      simp only [Option.map_some, hstride]

theorem handlesAt_code (before rest : List Char) (warnings : Array Warning) :
    Rule.code.HandlesAt before rest warnings := by
  obtain ⟨body, hrest, hbody⟩ := exists_run rest
  generalize runLength rest = fence at hrest
  subst hrest
  have hread : Rule.code.read (byteSize before) (List.replicate fence '`' ++ body) =
    Reading.code (byteSize before) (List.replicate fence '`' ++ body) := rfl
  simp only [Reading.code, runLength_replicate_append hbody,
    List.drop_left' (List.length_replicate ..)] at hread
  have hhandle : Rule.code.handle? (before ++ (List.replicate fence '`' ++ body)) (byteSize before)
    warnings = _ := code_append before warnings hbody
  by_cases hempty : body = []
  · rw [if_pos (by simpa using hempty)] at hread
    simp only [if_pos hempty] at hhandle
    refine Rule.handlesAt_of_take? rfl hread rfl (by simp [degraded]) (byteSize_replicate fence) ?_
    rw [hhandle, ← Array.append_singleton]
    rfl
  rw [if_neg (by simpa using hempty)] at hread
  simp only [if_neg hempty] at hhandle
  cases hclose : closing? fence body with
  | some len =>
    rw [hclose] at hread hhandle
    obtain ⟨content, after, hsplit, hlen, -⟩ := exists_of_go_eq_some hclose
    rw [List.replicate_zero, List.nil_append] at hsplit
    rw [Nat.zero_add] at hlen
    have htake : body.take len = content ++ List.replicate fence '`' := by
      rw [hsplit, List.take_left' (by simp [hlen])]
    have hraw : List.replicate fence '`' ++ body =
        (List.replicate fence '`' ++ (content ++ List.replicate fence '`')) ++ after := by
      rw [hsplit, List.append_assoc, List.append_assoc, List.append_assoc]
    have hsize : byteSize (List.replicate fence '`' ++ (content ++ List.replicate fence '`')) =
        fence + byteSize (body.take len) := by
      rw [htake, byteSize_append, byteSize_replicate]
    exact Rule.handlesAt_of_take? hraw hread rfl (by simp [clean, hlen]) hsize hhandle
  | none =>
    rw [hclose] at hread hhandle
    by_cases hshort : fence < blockFence
    · simp only [if_pos hshort] at hread hhandle
      refine Rule.handlesAt_of_take? rfl hread rfl (by simp [degraded]) (byteSize_replicate fence) ?_
      rw [hhandle, ← Array.append_singleton]
      rfl
    · simp only [if_neg hshort] at hread hhandle
      have hsize : byteSize (List.replicate fence '`' ++ body) = fence + byteSize body := by
        rw [byteSize_append, byteSize_replicate]
      refine Rule.handlesAt_of_take? (List.append_nil _).symm hread rfl (by simp) hsize ?_
      rw [hhandle, ← Array.append_singleton]
      rfl

/-- Nothing is taken from the middle of a character or from beyond the end. -/
theorem handle?_eq_none (rule : Rule) (warnings : Array Warning) (h : dropBytes? index text = none) :
    rule.handle? text index warnings = none := by
  have hnone (ws : Array Warning) (kind : TokenKind) (len : Nat) : take? text index ws kind len = none :=
    take?_eq_none ws kind (by rw [h]; rfl)
  have hclose (lastParen : Option Nat) : closeBracketBefore text index warnings lastParen = none := by
    simp only [closeBracketBefore, hnone]
    split
    · rfl
    · rw [ite_eq_left_iff]
      intro _
      cases parenAfter? (utf8Bytes text) (index + 2) lastParen with
      | none => rfl
      | some found => cases found <;> rfl
  cases rule with
  | closeBracket => exact hclose _
  | closeBracketBefore lastParen => exact hclose lastParen
  | underscore => exact hnone ..
  | star => simp only [Rule.handle?, star, hnone, ite_self]
  | tilde => simp only [Rule.handle?, tilde, hnone, ite_self]
  | bang => simp only [Rule.handle?, bang, hnone, ite_self]
  | openBracket => simp only [Rule.handle?, openBracket, hnone, ite_self]
  | escape =>
    simp only [Rule.handle?, escape, hnone]
    split <;> rfl
  | code =>
    rw [Rule.handle?, code, Option.bind_eq_bind, Option.bind_eq_none_iff]
    intro _ _
    simp only [hnone, ite_self]
    rw [ite_eq_left_iff]
    intro _
    split <;> rfl

/-- Where the last `)` of a text is known, an address ends at its first one. -/
theorem parenWithin?_eq_findIdx? {lastParen : Option Nat} {address : List Char} (hc : c.utf8Size = 1)
    (hcovers : Covers lastParen index (c :: '(' :: address)) :
    parenWithin? (lastParen.elim 0 (· + 1 - (index + 2))) address = address.findIdx? (· == ')') := by
  by_cases hparen : ')' ∈ address
  · obtain ⟨url, t, rfl, hurl⟩ := List.eq_append_cons_of_mem hparen
    obtain ⟨last, rfl, hle⟩ := hcovers (c :: '(' :: url) t rfl
    have hopen : '('.utf8Size = 1 := rfl
    have hwindow : byteSize url < last + 1 - (index + 2) := by
      rw [byteSize_cons, byteSize_cons, hc, hopen] at hle
      omega
    have hnone : url.findIdx? (· == ')') = none := by
      simpa [List.findIdx?_eq_none_iff] using fun d hd (he : d = ')') => hurl (he ▸ hd)
    rw [Option.elim_some, parenWithin?, parenWithin?_go hurl hwindow, Nat.zero_add, List.findIdx?_append,
      hnone, List.findIdx?_cons]
    simp
  · have hnone : address.findIdx? (· == ')') = none := by
      simpa [List.findIdx?_eq_none_iff] using fun d hd (he : d = ')') => hparen (he ▸ hd)
    rw [hnone, parenWithin?_eq_none hparen]

theorem closeBracket_eq {lastParen : Option Nat} {after : List Char} (hc : c.utf8Size = 1)
    (hcovers : Covers lastParen index (c :: after)) :
    Reading.closeBracket index (c :: after) =
      Reading.closeBracketBefore lastParen index (c :: after) := by
  simp only [closeBracket, Reading.closeBracketBefore, closeBracketWith]
  split
  · rename_i heq
    obtain ⟨rfl, rfl⟩ := List.cons_eq_cons.1 heq
    rw [parenWithin?_eq_findIdx? hc hcovers]
  · rfl
  · rfl

/-- A closing bracket is handled as one that knows the last `)` of the text. -/
theorem readAt?_closeBracket (before rest : List Char) :
    Rule.closeBracket.readAt? (before ++ rest) (byteSize before) =
      (Rule.closeBracketBefore (lastOffset? ')' (before ++ rest))).readAt? (before ++ rest)
        (byteSize before) := by
  by_cases hrest : Rule.startsNarrow rest
  · obtain ⟨c, after, rfl, hc⟩ := exists_of_startsNarrow hrest
    have hinside : ∀ last ∈ lastOffset? ')' (before ++ c :: after),
        last < byteSize before + byteSize (c :: after) := fun last hlast => by
      rw [← byteSize_append]
      exact lt_of_lastOffset? hlast
    have happlies : (Rule.closeBracketBefore (lastOffset? ')' (before ++ c :: after))).applies
        (byteSize before) (c :: after) := by
      simp only [Rule.applies, hrest, Bool.true_and, Bool.or_eq_true, Option.all_eq_true,
        decide_eq_true_eq]
      exact .inr hinside
    have hcovers := (covers_lastOffset? (before ++ c :: after)).drop
    rw [Nat.zero_add] at hcovers
    have hread : Rule.closeBracket.read (byteSize before) (c :: after) =
        (Rule.closeBracketBefore (lastOffset? ')' (before ++ c :: after))).read (byteSize before)
          (c :: after) := closeBracket_eq hc hcovers
    rw [Rule.readAt?_append .closeBracket before (c :: after) hrest,
      Rule.readAt?_append _ before _ happlies, hread]
  · rw [Rule.readAt?_eq_none .closeBracket before rest hrest,
      Rule.readAt?_eq_none _ before _ (by simp [Rule.applies, hrest])]

end Handler

/-- On the bytes of a text a handler does what its rule does on the characters. -/
theorem Rule.handle?_eq (rule : Rule) (text : List Char) (index : Nat) (warnings : Array Warning) :
    rule.handle? text index warnings = (rule.readAt? text index).map (.ofRead warnings) := by
  cases hrest : dropBytes? index text with
  | none =>
    rw [Handler.handle?_eq_none rule warnings hrest, readAt?, hrest]
    rfl
  | some rest =>
    obtain ⟨before, rfl, rfl⟩ := exists_of_dropBytes?_eq_some hrest
    cases rule with
    | star => exact Handler.handlesAt_star before rest warnings
    | tilde => exact Handler.handlesAt_tilde before rest warnings
    | underscore => exact Handler.handlesAt_underscore before rest warnings
    | code => exact Handler.handlesAt_code before rest warnings
    | escape => exact Handler.handlesAt_escape before rest warnings
    | bang => exact Handler.handlesAt_bang before rest warnings
    | openBracket => exact Handler.handlesAt_openBracket before rest warnings
    | closeBracket =>
      rw [Handler.readAt?_closeBracket]
      exact Handler.handlesAt_closeBracketBefore before rest warnings _
    | closeBracketBefore lastParen =>
      exact Handler.handlesAt_closeBracketBefore before rest warnings lastParen

end InlineMarkup
