import InlineMarkup.Proofs.Greedy
import InlineMarkup.Proofs.Heights
import InlineMarkup.Proofs.Mirror
import InlineMarkup.Proofs.Nesting

/-! Normal trees: no empty and no broken text, no style within itself, and no more containers around each
other than tags may be open, but for the link that stands for a bare address. -/

namespace InlineMarkup

namespace Tree

/-- Whether a tree may stand within containers of the styles in `outer` where `room` more containers may
stand around each other. A link that stands for a bare address needs no room. -/
inductive Normal (bare : List Char → Prop) : List Style → Nat → Tree → Prop
  | text (outer : List Style) (room : Nat) {content : List Char} (hne : content ≠ []) :
      Normal bare outer room (.text content)
  | code (outer : List Style) (room : Nat) {fence : Nat} {content : List Char} (hfence : fence ≠ 0)
      (hne : content ≠ []) (hhead : content.head? ≠ some '`') :
      Normal bare outer room (.code fence content)
  | bareLink (outer : List Style) (room : Nat) {url : List Char} (hbare : bare url) (hne : url ≠ []) :
      Normal bare outer room (.link url [.text url])
  | container {outer : List Style} {room : Nat} (tag : Tag) (url : List Char) {children : List Tree}
      (hfree : ∀ style ∈ tag.styles, style ∉ outer) (hmerged : Merged children)
      (hchildren : ∀ child ∈ children, Normal bare (tag.styles ++ outer) room child) :
      Normal bare outer (room + 1) (tag.tree url children)

variable {bare : List Char → Prop} {outer : List Style} {room : Nat} {P : Tree → Prop} {tree : Tree}
  {ts : List Tree} {s t : List Char}

theorem Normal.text_ne_nil (h : Normal bare outer room (.text s)) : s ≠ [] := by
  generalize htree : Tree.text s = tree at h
  cases h with
  | text _ _ hne => exact Tree.text.inj htree ▸ hne
  | code | bareLink => cases htree
  | container tag => cases tag <;> cases htree

/-- Trees stay what they are when texts side by side become one, but for these texts. -/
theorem forall_mem_before (htext : ∀ s t, P (.text s) → P (.text t) → P (.text (s ++ t))) (htree : P tree)
    (h : ∀ u ∈ ts, P u) : ∀ u ∈ before tree ts, P u := by
  by_cases ht : tree.isText
  · obtain ⟨s, rfl⟩ := isText_iff.1 ht
    cases ts with
    | nil => exact List.forall_mem_singleton.2 htree
    | cons u ts =>
      obtain ⟨hu, hts⟩ := List.forall_mem_cons.1 h
      by_cases hutext : u.isText
      · obtain ⟨t, rfl⟩ := isText_iff.1 hutext
        exact List.forall_mem_cons.2 ⟨htext s t htree hu, hts⟩
      · rw [before_cons_of_not_isText hutext]
        exact List.forall_mem_cons.2 ⟨htree, h⟩
  · rw [before_of_not_isText ht]
    exact List.forall_mem_cons.2 ⟨htree, h⟩

theorem forall_mem_merge (htext : ∀ s t, P (.text s) → P (.text t) → P (.text (s ++ t)))
    (h : ∀ u ∈ ts, P u) : ∀ u ∈ merge ts, P u := by
  induction ts with
  | nil => exact h
  | cons tree ts ih =>
    obtain ⟨htree, hts⟩ := List.forall_mem_cons.1 h
    exact forall_mem_before htext htree (ih hts)

theorem Normal.merge (h : ∀ tree ∈ ts, Normal bare outer room tree) :
    ∀ tree ∈ merge ts, Normal bare outer room tree :=
  forall_mem_merge (fun s t hs _ => .text outer room (by simp [hs.text_ne_nil])) h

end Tree

variable {bare : List Char → Prop} {options : ScanOptions} {noted : TokenKind → Issue → Prop}
  {prev next : Option Char} {kind : TokenKind} {raw : List Char}

/-- What a token by itself says may stand anywhere. -/
theorem Fits.normal (h : Fits options noted prev kind raw next)
    (hbare : options.bareUrls → kind = .bareUrl → bare raw) (outer : List Style) (room : Nat) :
    (Tree.ofToken kind raw).Normal bare outer room := by
  have hraw := h.raw_ne_nil
  cases h with
  | @escape c => exact .text _ _ (List.cons_ne_nil c [])
  | @code _ fence content _ hkind hcode hnext =>
    have hparts : Backtick.parts (Markdown.fenced fence content) = (fence, content) := by
      rw [Markdown.fenced, List.append_assoc]
      exact Backtick.parts_fenced hcode.content_ne_nil hcode.head hcode.last
    have hnormal : (Tree.code fence content).Normal bare outer room :=
      .code _ _ hcode.fence_ne_zero hcode.content_ne_nil hcode.head
    rcases hkind with rfl | rfl <;> rw [Tree.ofToken, hparts] <;> exact hnormal
  | unclosed hfence hcontent hhead hfree hnoted =>
    rw [Tree.ofToken, Backtick.parts_unclosed hfence hhead hfree]
    exact .code _ _ hfence hcontent hhead
  | bareUrl _ hon => exact .bareLink _ _ (hbare hon rfl) hraw
  | bold | italic | strikethrough | underline | linkStart | imageStart | address | text =>
    exact .text _ _ hraw

/-- No style is within itself, and pairs take no more room than they have. -/
theorem Item.Settled.normal {item : Item} {outer : List Tag} {room : Nat} (h : item.Settled outer)
    (hheight : item.syntaxTree.height ≤ room)
    (hpieces : ∀ piece ∈ item.pieces, ∀ outer room, (Tree.ofToken piece.1 piece.2).Normal bare outer room) :
    item.tree.Normal bare (outer.flatMap Tag.styles) room := by
  induction h generalizing room with
  | token raw hstray => exact hpieces _ List.mem_cons_self _ _
  | @pair outer tag inside opener closer hstray hinside ih =>
    rw [Item.height_pair] at hheight
    obtain ⟨room, rfl⟩ := Nat.exists_eq_add_one_of_ne_zero (Nat.ne_zero_of_lt hheight)
    have hlow := SyntaxTree.allHeight_le_iff.1 (Nat.le_of_succ_le_succ hheight)
    rw [Item.tree, Item.trees_eq_map]
    refine .container tag _ (Tag.notMem_styles hstray) (Tree.merged_merge _)
      (Tree.Normal.merge (List.forall_mem_map.2 fun item hitem => ?_))
    refine ih item hitem (hlow _ (List.mem_map_of_mem hitem)) fun piece hpiece => hpieces piece ?_
    refine List.mem_append_left _ (List.mem_cons_of_mem _ ?_)
    exact Item.mem_allPieces.2 ⟨item, hitem, hpiece⟩

/-- Whether an address stands alone in a text, as a token of its own. -/
def StandsAlone (options : ScanOptions) (text url : List Char) : Prop :=
  options.bareUrls ∧ ∃ token ∈ (scan options text).tokens, token.kind = .bareUrl ∧ token.raw = url

/-- What a text is made into is normal. -/
theorem normal_pairUp (options : ScanOptions) (text : List Char) :
    ∀ tree ∈ Tree.merge ((pairUp (scan options text).pieces).map Item.tree),
      tree.Normal (StandsAlone options text) [] Assembly.maxDepth := by
  refine Tree.Normal.merge (List.forall_mem_map.2 fun item hitem => ?_)
  refine (settled_pairUp _ item hitem).normal (height_pairUp_le _ item hitem) fun piece hpiece => ?_
  have hmem : piece ∈ (scan options text).pieces := by
    rw [← allPieces_pairUp (scan options text).pieces]
    exact Item.mem_allPieces.2 ⟨item, hitem, hpiece⟩
  obtain ⟨prev, next, hfits⟩ := (cut_scan options text).2.exists_fits piece hmem
  obtain ⟨token, htoken, rfl⟩ := List.mem_map.1 hmem
  exact hfits.normal fun hon hkind => ⟨hon, token, Array.mem_toList_iff.1 htoken, hkind, rfl⟩

end InlineMarkup
