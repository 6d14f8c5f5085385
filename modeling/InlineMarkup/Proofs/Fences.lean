import InlineMarkup.Proofs.Lexemes

/-! Fences: where code starts and ends in a text, and the node that comes out of it. A token does not
say whether its fence was closed, so its node is made from the raw text alone. -/

namespace InlineMarkup

variable {fence index n : Nat} {text rest body content before after : List Char} {token : Token}

theorem exists_of_dropBytes?_eq_some (h : dropBytes? n text = some rest) :
    ∃ before, text = before ++ rest ∧ byteSize before = n := by
  induction text generalizing n with
  | nil =>
    cases n with
    | zero => exact ⟨[], by simpa [dropBytes?] using h, rfl⟩
    | succ n => simp [dropBytes?] at h
  | cons c text ih =>
    cases n with
    | zero => exact ⟨[], by simpa [dropBytes?] using h, rfl⟩
    | succ n =>
      obtain ⟨hsize, h⟩ := Option.ite_none_right_eq_some.1 h
      obtain ⟨before, rfl, hbefore⟩ := ih h
      refine ⟨c :: before, rfl, ?_⟩
      rw [byteSize_cons, hbefore]
      omega

namespace Backtick

/-- Whether `content` is what stands before the first run of exactly `fence` backticks in `body`, and
`after` what stands behind it. -/
structure Closes (fence : Nat) (body content after : List Char) : Prop where
  split : body = content ++ (List.replicate fence '`' ++ after)
  last : content.getLast? ≠ some '`'
  next : after.head? ≠ some '`'
  first : ∀ s t, body = s ++ (List.replicate fence '`' ++ t) → s.getLast? ≠ some '`' →
    t.head? ≠ some '`' → content.length ≤ s.length

/-- A run that starts in a text ends in it if the text ends in something else. -/
theorem hasRun_of_append {s t : List Char} (hlast : content.getLast? ≠ some '`')
    (hsplit : content ++ rest = s ++ (List.replicate fence '`' ++ t)) (hs : s.getLast? ≠ some '`')
    (ht : t.head? ≠ some '`') (hlt : s.length < content.length) : HasRun fence content := by
  rcases List.append_eq_append_iff.1 hsplit with ⟨u, hu, -⟩ | ⟨u, rfl, hu⟩
  · rw [hu, List.length_append] at hlt
    omega
  · have hu0 : u ≠ [] := by
      rintro rfl
      simp at hlt
    rcases List.append_eq_append_iff.1 hu with ⟨v, rfl, rfl⟩ | ⟨v, hv, -⟩
    · refine ⟨s, v, rfl, hs, fun hv => ht ?_⟩
      rw [List.head?_append, hv]
      rfl
    · -- the run would go on behind the last character, which is then a backtick
      obtain ⟨c, hc⟩ := Option.ne_none_iff_exists'.1 (mt List.getLast?_eq_none_iff.1 hu0)
      have hmem : c ∈ List.replicate fence '`' := hv ▸ List.mem_append_left v (List.mem_of_getLast? hc)
      apply absurd _ hlast
      rw [List.getLast?_append, hc, List.eq_of_mem_replicate hmem]
      rfl

theorem exists_closes (hf : fence ≠ 0) (hbody : body.head? ≠ some '`') (hrun : HasRun fence body) :
    ∃ content after, Closes fence body content after ∧ content ≠ [] ∧ content.head? ≠ some '`' ∧
      ¬HasRun fence content := by
  obtain ⟨len, hlen⟩ := Option.ne_none_iff_exists'.1 (mt (closing?_eq_none_iff hf).1 (not_not_intro hrun))
  obtain ⟨content, after, rfl, -, hne, hlast, hnext, hfree⟩ := exists_of_closing?_eq_some hf hbody hlen
  rw [closing?_eq_none_iff hf] at hfree
  refine ⟨content, after, ⟨rfl, hlast, hnext, fun s t hsplit hs ht => ?_⟩, hne, ?_, hfree⟩
  · by_contra hlt
    exact hfree (hasRun_of_append hlast hsplit hs ht (Nat.not_le.1 hlt))
  · obtain ⟨c, content, rfl⟩ := List.exists_cons_of_ne_nil hne
    simpa using hbody

end Backtick

open Backtick

theorem readAt?_code (before rest : List Char) :
    Rule.code.readAt? (before ++ rest) (byteSize before) =
      some ((Reading.code (byteSize before) rest).token (byteSize before) rest,
        (Reading.code (byteSize before) rest).warning) := by
  simp only [Rule.readAt?, dropBytes?_append, Rule.applies, Rule.read, guard, if_pos,
    Option.bind_eq_bind, Option.bind_some, Option.pure_def]

theorem Reading.code_closed (index : Nat) (hcode : Encloses fence content)
    (hcloses : Closes fence body content after) :
    (code index (List.replicate fence '`' ++ body)).kind =
        (if blockFence ≤ fence then .codeBlock else .codeInline) ∧
      (List.replicate fence '`' ++ body).take (code index (List.replicate fence '`' ++ body)).len =
        List.replicate fence '`' ++ (content ++ List.replicate fence '`') := by
  have hwritten : List.replicate fence '`' ++ body = Markdown.fenced fence content ++ after := by
    simp only [hcloses.split, Markdown.fenced, List.append_assoc]
  rw [hwritten, read_code hcode hcloses.next]
  refine ⟨rfl, ?_⟩
  rw [clean, List.take_left' rfl, Markdown.fenced, List.append_assoc]

/-- Whether the token is code with the fence and the content, wherever it comes. -/
structure Token.IsCode (token : Token) (fence : Nat) (content : List Char) : Prop where
  kind : token.kind = if blockFence ≤ fence then .codeBlock else .codeInline
  node : ∀ assembly : Assembly, (assembly.step token).document =
    (assembly.document.add assembly.current (.code fence content)).1
  content_ne_nil : content ≠ []
  head : content.head? ≠ some '`'
  free : ¬HasRun fence content

theorem Token.isCode_of_parts (hkind : token.kind = if blockFence ≤ fence then .codeBlock else .codeInline)
    (hparts : parts token.raw = (fence, content)) (hcontent : content ≠ [])
    (hhead : content.head? ≠ some '`') (hfree : ¬HasRun fence content) : token.IsCode fence content := by
  refine ⟨hkind, fun assembly => ?_, hcontent, hhead, hfree⟩
  have hstep : assembly.step token = assembly.addCode token := by
    split at hkind <;> simp only [Assembly.step, hkind]
  rw [hstep, Assembly.addCode, hparts]
  rfl

/-- What becomes of an opening run of `fence` backticks before `body`. -/
structure Token.ReadsFence (token : Token) (fence : Nat) (body : List Char) : Prop where
  /-- A run that ends the text is text. -/
  atEnd : body = [] → token.kind = .text ∧ token.raw = List.replicate fence '`'
  /-- The first later run of the same length closes the fence. -/
  closed : HasRun fence body → ∃ content after, Closes fence body content after ∧
    token.raw = List.replicate fence '`' ++ (content ++ List.replicate fence '`') ∧
    token.IsCode fence content
  /-- Without one, a short run is text and a long one starts a block that nothing ends. -/
  unclosed : body ≠ [] → ¬HasRun fence body →
    if fence < blockFence then token.kind = .text ∧ token.raw = List.replicate fence '`'
    else token.raw = List.replicate fence '`' ++ body ∧ token.IsCode fence body

theorem readsFence_code (index : Nat) (hfence : fence ≠ 0) (hbody : body.head? ≠ some '`') :
    ((Reading.code index (List.replicate fence '`' ++ body)).token index
      (List.replicate fence '`' ++ body)).ReadsFence fence body where
  atEnd hempty := by
    obtain ⟨hkind, hlen⟩ := Reading.code_ticks index hbody (.inl hempty)
    exact ⟨hkind, by rw [Reading.token, hlen, List.take_left' (List.length_replicate ..)]⟩
  closed hrun := by
    obtain ⟨content, after, hcloses, hcontent, hhead, hfree⟩ := exists_closes hfence hbody hrun
    have hcode : Encloses fence content :=
      ⟨hfence, hcontent, hhead, hcloses.last, (closing?_eq_none_iff hfence).2 hfree⟩
    obtain ⟨hkind, hraw⟩ := Reading.code_closed index hcode hcloses
    refine ⟨content, after, hcloses, hraw, Token.isCode_of_parts hkind ?_ hcontent hhead hfree⟩
    exact (congrArg parts hraw).trans (parts_fenced hcontent hhead hcloses.last)
  unclosed hne hfree := by
    have hnone := (closing?_eq_none_iff hfence).2 hfree
    by_cases hshort : fence < blockFence
    · rw [if_pos hshort]
      obtain ⟨hkind, hlen⟩ := Reading.code_ticks index hbody (.inr ⟨hshort, hnone⟩)
      exact ⟨hkind, by rw [Reading.token, hlen, List.take_left' (List.length_replicate ..)]⟩
    · rw [if_neg hshort]
      have hlong := Nat.not_lt.1 hshort
      obtain ⟨hkind, hlen⟩ := Reading.code_open index hlong hne hbody hnone
      have hraw : ((Reading.code index (List.replicate fence '`' ++ body)).token index
          (List.replicate fence '`' ++ body)).raw = List.replicate fence '`' ++ body := by
        rw [Reading.token, hlen, List.take_length]
      refine ⟨hraw, Token.isCode_of_parts ?_ ?_ hne hbody hfree⟩
      · rw [if_pos hlong]
        exact hkind
      · rw [hraw, parts_unclosed hfence hbody hnone]

/-- Wherever a backtick stands, the search for a closing fence and the raw text of the token agree on
what is code. -/
theorem exists_readAt?_code (htrigger : Trigger.at? text index = some .backtick) :
    ∃ before fence body, text = before ++ (List.replicate fence '`' ++ body) ∧
      byteSize before = index ∧ fence ≠ 0 ∧ body.head? ≠ some '`' ∧
      ∃ token warning, Rule.code.readAt? text index = some (token, warning) ∧ token.pos = index ∧
        token.ReadsFence fence body := by
  obtain ⟨rest, hrest, hhead⟩ := Option.bind_eq_some_iff.1 htrigger
  obtain ⟨c, hc, htick⟩ := Option.bind_eq_some_iff.1 hhead
  obtain rfl : '`' = c := Trigger.char_of_ofChar? htick
  obtain ⟨before, rfl, rfl⟩ := exists_of_dropBytes?_eq_some hrest
  obtain ⟨body, hbody, hnext⟩ := exists_run rest
  have hfence : runLength rest ≠ 0 := by
    intro hzero
    rw [hzero, List.replicate_zero, List.nil_append] at hbody
    exact hnext (hbody ▸ hc)
  generalize runLength rest = fence at hbody hfence
  subst hbody
  exact ⟨before, fence, body, rfl, rfl, hfence, hnext, _, _, readAt?_code .., rfl,
    readsFence_code _ hfence hnext⟩

/-- A block whose content ends in a longer run than its fence. -/
theorem readAt?_code_longer_run :
    Trigger.at? "ä```b``````".toList 2 = some .backtick ∧
      ∃ token warning, Rule.code.readAt? "ä```b``````".toList 2 = some (token, warning) ∧
        token.IsCode 3 "b``````".toList := by
  have htrigger : Trigger.at? "ä```b``````".toList 2 = some .backtick := by decide
  refine ⟨htrigger, ?_⟩
  obtain ⟨before, fence, body, hsplit, hsize, -, hbody, token, warning, hread, -, hreads⟩ :=
    exists_readAt?_code htrigger
  have hrest : some (List.replicate fence '`' ++ body) = some "```b``````".toList := by
    rw [← dropBytes?_append before, ← hsplit, hsize]
    decide
  have hrest := Option.some.inj hrest
  have hrun : runLength (List.replicate fence '`' ++ body) = fence := runLength_replicate_append hbody
  rw [hrest] at hrun
  obtain rfl : fence = 3 := hrun.symm.trans (by decide)
  obtain rfl : body = "b``````".toList := List.append_cancel_left hrest
  have hfree : ¬HasRun 3 "b``````".toList := (closing?_eq_none_iff (by decide)).1 (by decide)
  exact ⟨token, warning, hread, (hreads.unclosed (by decide) hfree).2⟩

end InlineMarkup
