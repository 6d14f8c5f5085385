import InlineMarkup.Proofs.Pairing

/-! Moments: the states that assembly passes through, each together with what pairing has made of the
same tokens. -/

namespace InlineMarkup

namespace Assembly

/-- Takes in a token that neither opens nor closes a tag. -/
def takeLeaf (assembly : Assembly) (token : Token) : Assembly :=
  match token.kind with
  | .escape => assembly.addText token (token.raw.drop 1)
  | .codeInline | .codeBlock => assembly.addCode token
  | .bareUrl => assembly.addBareUrl token
  | .bold | .italic | .strikethrough | .underline | .linkStart | .address | .imageStart | .text =>
    assembly.addText token token.raw

/-- The moments of assembly: what the tokens so far have been made into. A closer and the end of the
tokens demote open tags one by one. A tag is open from the moment when its mark is made to the one when
that mark is used. -/
inductive Reached : List Token → Assembly → Pairing → Prop
  | start : Reached [] { trace := Trace.push {} (.start .root) } {}
  | leaf {tokens : List Token} {assembly : Assembly} {pairing : Pairing}
      (h : Reached tokens assembly pairing) (token : Token) (recoveries : Array Recovery) :
      Reached (tokens ++ [token]) ({ assembly with recoveries }.takeLeaf token)
        (pairing.push (.token token.kind token.raw))
  | opened {tokens : List Token} {assembly : Assembly} {pairing : Pairing}
      (h : Reached tokens assembly pairing) (token : Token) (tag : Tag) (hkind : token.kind = tag.opener)
      (hroom : assembly.openTags.length < maxDepth) :
      Reached (tokens ++ [token]) (assembly.openTag tag token)
        ⟨⟨tag, token.raw, pairing.level⟩ :: pairing.waiting, []⟩
  | demoted {tokens : List Token} {assembly : Assembly} {opened : OpenTag} {openTags : List OpenTag}
      {w : Waiting} {waiting : List Waiting} {level : List Item}
      (h : Reached tokens assembly ⟨w :: waiting, level⟩) (hopen : assembly.openTags = opened :: openTags) :
      Reached tokens ({ assembly with openTags }.demote opened)
        ⟨waiting, w.before ++ .token w.tag.opener w.raw :: level⟩
  | finished {tokens : List Token} {assembly : Assembly} {opened : OpenTag} {openTags : List OpenTag}
      {w : Waiting} {waiting : List Waiting} {level : List Item}
      (h : Reached tokens assembly ⟨w :: waiting, level⟩) (hopen : assembly.openTags = opened :: openTags)
      (token : Token) (hkind : token.kind = w.tag.closer) :
      Reached (tokens ++ [token]) ({ assembly with openTags }.finish opened token)
        ⟨waiting, w.before ++ [.pair w.tag w.raw level token.raw]⟩

variable {assembly : Assembly} {token : Token} {tokens : List Token} {pairing : Pairing}
  {opened : OpenTag}

@[simp] theorem openTags_takeLeaf (assembly : Assembly) (token : Token) :
    (assembly.takeLeaf token).openTags = assembly.openTags := by
  unfold takeLeaf
  split <;> rfl

@[simp] theorem trace_takeLeaf (assembly : Assembly) (token : Token) :
    (assembly.takeLeaf token).trace = assembly.trace.push (.token (.token token.kind)) := by
  unfold takeLeaf
  split <;> rfl

theorem takeLeaf_of_isDelimiter (h : token.kind.isDelimiter) :
    assembly.takeLeaf token = assembly.addText token token.raw := by
  cases hkind : token.kind <;> simp_all [takeLeaf, TokenKind.isDelimiter]

/-- A tag is opened at the mark of an event kept free, which its opener follows. -/
theorem openTag_of_lt (tag : Tag) (token : Token) (h : assembly.openTags.length < maxDepth) :
    assembly.openTag tag token =
      { document := (assembly.document.addEmpty assembly.current tag.nodeKind).1
        openTags := ⟨tag, (assembly.document.addEmpty assembly.current tag.nodeKind).2,
          assembly.current, token.raw, assembly.trace.mark.2⟩ :: assembly.openTags
        trace := assembly.trace.mark.1.push (.token (.token token.kind))
        recoveries := assembly.recoveries } := by
  rw [openTag, if_neg (Nat.not_le.2 h)]
  rfl

@[simp] theorem openTags_setUrl (assembly : Assembly) (opened : OpenTag) (token : Token) :
    (assembly.setUrl opened token).openTags = assembly.openTags := by
  unfold setUrl
  split <;> rfl

@[simp] theorem trace_setUrl (assembly : Assembly) (opened : OpenTag) (token : Token) :
    (assembly.setUrl opened token).trace = assembly.trace := by
  unfold setUrl
  split <;> rfl

@[simp] theorem openTags_finish (assembly : Assembly) (opened : OpenTag) (token : Token) :
    (assembly.finish opened token).openTags = assembly.openTags :=
  openTags_setUrl assembly opened token

@[simp] theorem trace_finish (assembly : Assembly) (opened : OpenTag) (token : Token) :
    (assembly.finish opened token).trace = (assembly.trace.push (.token (.token token.kind))).complete
      opened.marker opened.tag.syntaxKind := by
  simp [finish, record]

theorem document_finish (assembly : Assembly) (opened : OpenTag) (token : Token) :
    (assembly.finish opened token).document = if opened.tag.isSymmetric then assembly.document
      else assembly.document.setUrl opened.node (Reading.addressOf token.raw) := by
  simp only [finish, record, setUrl]
  split <;> rfl

@[simp] theorem openTags_foldl_demote (above : List OpenTag) (assembly : Assembly) :
    (above.foldl demote assembly).openTags = assembly.openTags := by
  induction above generalizing assembly with
  | nil => rfl
  | cons opened above ih => exact ih _

/-- Which tags stay open does not matter to those that are demoted. -/
theorem foldl_demote_openTags (above openTags : List OpenTag) (assembly : Assembly) :
    above.foldl demote { assembly with openTags } =
      { above.foldl demote assembly with openTags } := by
  induction above generalizing assembly with
  | nil => rfl
  | cons opened above ih => exact ih (assembly.demote opened)

namespace Reached

/-- The tags that are open are those whose openers wait. -/
theorem map_tag_eq (h : Reached tokens assembly pairing) :
    assembly.openTags.map (·.tag) = pairing.waiting.map (·.tag) := by
  induction h with
  | start => rfl
  | leaf h token recoveries ih => simpa [Pairing.push] using ih
  | opened h token tag hkind hroom ih => simpa [openTag_of_lt tag token hroom] using ih
  | demoted h hopen ih =>
    rw [hopen] at ih
    exact (List.cons_eq_cons.1 ih).2
  | finished h hopen token hkind ih =>
    rw [hopen] at ih
    simpa using (List.cons_eq_cons.1 ih).2

theorem length_eq (h : Reached tokens assembly pairing) :
    assembly.openTags.length = pairing.waiting.length := by
  simpa using congrArg List.length h.map_tag_eq

theorem isOpen_eq (h : Reached tokens assembly pairing) (p : Tag → Bool) :
    assembly.isOpen p = pairing.isOpen p := by
  have htags := congrArg (List.any · p) h.map_tag_eq
  simpa [Assembly.isOpen, Pairing.isOpen, List.any_map, Function.comp_def] using htags

/-- The innermost tags are demoted one by one. -/
theorem demote_above {above openTags : List OpenTag} {inner waiting : List Waiting}
    {level : List Item} (h : Reached tokens assembly ⟨inner ++ waiting, level⟩)
    (hopen : assembly.openTags = above ++ openTags) (hlength : above.length = inner.length) :
    Reached tokens (above.foldl demote { assembly with openTags })
      ⟨waiting, Waiting.demote inner level⟩ := by
  induction above generalizing assembly inner level with
  | nil =>
    obtain rfl : inner = [] := List.length_eq_zero_iff.1 hlength.symm
    rw [List.nil_append] at hopen
    rw [← hopen]
    exact h
  | cons opened above ih =>
    obtain ⟨w, inner, rfl⟩ := List.exists_cons_of_length_eq_add_one hlength.symm
    exact ih (h.demoted hopen) rfl (Nat.succ.inj hlength)

theorem openTag (h : Reached tokens assembly pairing) (tag : Tag) (hkind : token.kind = tag.opener) :
    Reached (tokens ++ [token]) (assembly.openTag tag token) (pairing.openTag tag token.raw) := by
  by_cases hroom : assembly.openTags.length < maxDepth
  · rw [Pairing.openTag, if_neg (Nat.not_le.2 (h.length_eq ▸ hroom))]
    exact h.opened token tag hkind hroom
  · have hfull := Nat.le_of_not_lt hroom
    have hleaf := h.leaf token (assembly.recoveries.push (.nestingLimit tag token.pos))
    rw [takeLeaf_of_isDelimiter (hkind ▸ tag.isDelimiter_opener), hkind] at hleaf
    rwa [Assembly.openTag, if_pos hfull, Pairing.openTag, if_pos (h.length_eq ▸ hfull)]

theorem closeNearest (h : Reached tokens assembly pairing) {p : Tag → Bool} (hopen : pairing.isOpen p)
    (hkind : ∀ tag, p tag → token.kind = tag.closer) :
    Reached (tokens ++ [token]) (assembly.closeNearest p token)
      (pairing.closeNearest p token.raw) := by
  obtain ⟨above, opened, openTags, hsplit, -, -, htake, hdrop⟩ :=
    Pairing.exists_nearest (fun opened : OpenTag => p opened.tag) ((h.isOpen_eq p).trans hopen)
  obtain ⟨inner, w, waiting, hsplit', hp, -, htake', hdrop'⟩ :=
    Pairing.exists_nearest (fun w : Waiting => p w.tag) hopen
  have hlength : above.length = inner.length := by
    have htags := congrArg (fun tags => (tags.takeWhile (!p ·)).length) h.map_tag_eq
    simpa [List.takeWhile_map, Function.comp_def, htake, htake'] using htags
  have hmoment : Reached tokens assembly ⟨inner ++ w :: waiting, pairing.level⟩ := hsplit' ▸ h
  have hdemoted := hmoment.demote_above hsplit hlength
  have hfinished := hdemoted.finished (openTags_foldl_demote ..) token (hkind w.tag hp)
  rw [← foldl_demote_openTags] at hfinished
  simpa only [Assembly.closeNearest, Pairing.closeNearest, htake, hdrop, htake', hdrop']
    using hfinished

theorem toggle (h : Reached tokens assembly pairing) (style : Style)
    (hkind : token.kind = style.tokenKind) :
    Reached (tokens ++ [token]) (assembly.toggle style token) (pairing.toggle style token.raw) := by
  rw [Assembly.toggle, h.isOpen_eq, Pairing.toggle]
  split
  · rename_i hopen
    refine h.closeNearest hopen fun tag htag => ?_
    rw [hkind, eq_of_beq htag]
    rfl
  · exact h.openTag (.styled style) hkind

theorem closeLink (h : Reached tokens assembly pairing) (hkind : token.kind = .address) :
    Reached (tokens ++ [token]) (assembly.closeLink token) (pairing.closeLink token.raw) := by
  rw [Assembly.closeLink, h.isOpen_eq, Pairing.closeLink]
  split
  · rename_i hopen
    exact h.closeNearest hopen fun tag htag => hkind.trans (Tag.closer_eq_address.2 htag).symm
  · have hleaf := h.leaf token assembly.recoveries
    rwa [takeLeaf_of_isDelimiter (by rw [hkind]; rfl), hkind] at hleaf

theorem step (h : Reached tokens assembly pairing) (token : Token) :
    Reached (tokens ++ [token]) (assembly.step token) (pairing.step token.kind token.raw) := by
  have hleaf := h.leaf token assembly.recoveries
  unfold takeLeaf at hleaf
  unfold Assembly.step
  cases hkind : token.kind with
  | text | escape | codeInline | codeBlock | bareUrl =>
    simp only [hkind] at hleaf
    exact hleaf
  | linkStart => exact h.openTag .link hkind
  | imageStart => exact h.openTag .image hkind
  | address => exact h.closeLink hkind
  | bold => exact h.toggle .bold hkind
  | italic => exact h.toggle .italic hkind
  | underline => exact h.toggle .underline hkind
  | strikethrough => exact h.toggle .strikethrough hkind

theorem run (h : Reached tokens assembly pairing) (more : List Token) :
    Reached (tokens ++ more) (more.foldl Assembly.step assembly)
      (pairing.run (more.map fun token => (token.kind, token.raw))) := by
  induction more generalizing tokens assembly pairing with
  | nil => simpa [Pairing.run] using h
  | cons token more ih => simpa [Pairing.run] using ih (h.step token)

/-- When the tokens end, all tags that are open are demoted. -/
theorem demoteAll (h : Reached tokens assembly pairing) :
    Reached tokens assembly.demoteAll ⟨[], pairing.items⟩ := by
  have hmoment : Reached tokens assembly ⟨pairing.waiting ++ [], pairing.level⟩ := by
    rw [List.append_nil]
    exact h
  exact hmoment.demote_above (List.append_nil _).symm h.length_eq

end Reached

/-- The last moment of assembly, which leaves no tag open. -/
theorem exists_reached (tokens : List Token) : ∃ last : Assembly,
    Reached tokens last ⟨[], pairUp (tokens.map fun token => (token.kind, token.raw))⟩ ∧
      (assemble tokens).document = last.document.compact ∧
      (assemble tokens).trace = last.trace.push .finish :=
  ⟨_, (Reached.start.run tokens).demoteAll, rfl, rfl⟩

end Assembly

end InlineMarkup
