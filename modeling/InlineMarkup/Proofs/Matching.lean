import InlineMarkup.Proofs.Greedy
import InlineMarkup.Proofs.Recording
import Mathlib.Data.List.Count

/-! Matching of delimiters, as a syntax tree shows it. -/

namespace InlineMarkup

namespace SyntaxTree

/-- Whether a tree is `whole` or stands in it at any depth. -/
inductive Within (part : SyntaxTree) : SyntaxTree → Prop
  | self : Within part part
  | child {kind : SyntaxKind} {children : List SyntaxTree} {tree : SyntaxTree}
      (hchild : tree ∈ children) (h : Within part tree) : Within part (.node kind children)

theorem Within.eq_or_exists {part : SyntaxTree} {kind : SyntaxKind} {children : List SyntaxTree}
    (h : part.Within (.node kind children)) :
    part = .node kind children ∨ ∃ tree ∈ children, part.Within tree := by
  cases h with
  | self => exact .inl rfl
  | child hchild h => exact .inr ⟨_, hchild, h⟩

/-- What a node holds between its delimiters. A root has none. -/
def held (kind : SyntaxKind) (children : List SyntaxTree) : List SyntaxTree :=
  if kind = .root then children else children.tail.dropLast

/-- The kinds of the tokens that stand by themselves. -/
def looseKinds (trees : List SyntaxTree) : List SyntaxKind :=
  trees.filterMap fun
    | token kind _ => some kind
    | node .. => none

/-- Whether few tokens stand by themselves in a node: of the delimiters that both open and close a tag
one of a kind, no opener of a link or image before an address, and no such opener at all in a link or
image. -/
structure Sparse (kind : SyntaxKind) (trees : List SyntaxTree) : Prop where
  once : ∀ style : Style, (looseKinds trees).count (.token style.tokenKind) ≤ 1
  apart : (looseKinds trees).Pairwise fun kind later =>
    kind = .token .linkStart ∨ kind = .token .imageStart → later ≠ .token .address
  link : kind = .link ∨ kind = .image →
    ∀ loose ∈ looseKinds trees, loose ≠ .token .linkStart ∧ loose ≠ .token .imageStart

end SyntaxTree

namespace Item

open SyntaxTree

variable {item : Item} {items inside : List Item} {kind : SyntaxKind} {children : List SyntaxTree}
  {tag : Tag} {raw opener closer : List Char} {outer : List Tag}

theorem looseKinds_map_syntaxTree :
    SyntaxTree.looseKinds (items.map syntaxTree) = (Item.looseKinds items).map .token := by
  induction items with
  | nil => rfl
  | cons item items ih =>
    cases item with
    | token => exact congrArg _ ih
    | pair => exact ih

/-- The children of a pair's node. -/
def delimited (tag : Tag) (opener : List Char) (inside : List Item) (closer : List Char) :
    List SyntaxTree :=
  .token (.token tag.opener) opener :: inside.map syntaxTree ++ [.token (.token tag.closer) closer]

theorem syntaxTree_pair (tag : Tag) (opener : List Char) (inside : List Item) (closer : List Char) :
    (Item.pair tag opener inside closer).syntaxTree =
      .node tag.syntaxKind (delimited tag opener inside closer) := by
  rw [syntaxTree, syntaxTrees_eq_map, delimited]

theorem mem_delimited {tree : SyntaxTree} (h : tree ∈ delimited tag opener inside closer) :
    (∃ kind raw, tree = .token kind raw) ∨ ∃ item ∈ inside, tree = item.syntaxTree := by
  rcases List.mem_append.1 h with h | h
  · rcases List.mem_cons.1 h with rfl | h
    · exact .inl ⟨_, _, rfl⟩
    · obtain ⟨item, hitem, rfl⟩ := List.mem_map.1 h
      exact .inr ⟨item, hitem, rfl⟩
  · exact .inl ⟨_, _, List.mem_singleton.1 h⟩

/-- A node in the tree of an item is the tree of a pair. What holds of the item, and of the items in each
pair that it holds of, holds of that pair. -/
theorem exists_pair (P : Item → Prop)
    (hP : ∀ tag opener inside closer, P (.pair tag opener inside closer) → ∀ item ∈ inside, P item)
    (h : P item) (hwithin : (SyntaxTree.node kind children).Within item.syntaxTree) :
    ∃ tag opener inside closer, P (.pair tag opener inside closer) ∧ kind = tag.syntaxKind ∧
      children = delimited tag opener inside closer := by
  generalize htree : item.syntaxTree = tree at hwithin
  induction hwithin generalizing item with
  | self =>
    cases item with
    | token => cases htree
    | pair tag opener inside closer =>
      rw [syntaxTree_pair] at htree
      obtain ⟨rfl, rfl⟩ := SyntaxTree.node.inj htree
      exact ⟨tag, opener, inside, closer, h, rfl, rfl⟩
  | child hchild hwithin ih =>
    cases item with
    | token => cases htree
    | pair tag opener inside closer =>
      rw [syntaxTree_pair] at htree
      obtain ⟨-, rfl⟩ := SyntaxTree.node.inj htree
      rcases mem_delimited hchild with ⟨_, _, rfl⟩ | ⟨item, hitem, rfl⟩
      · cases hwithin
      · exact ih (hP _ _ _ _ h item hitem) rfl

/-- A node in the tree of all items is the root or the tree of a pair. -/
theorem exists_pair_of_root (P : Item → Prop)
    (hP : ∀ tag opener inside closer, P (.pair tag opener inside closer) → ∀ item ∈ inside, P item)
    (h : ∀ item ∈ items, P item)
    (hwithin : (SyntaxTree.node kind children).Within (.node .root (items.map syntaxTree))) :
    kind = .root ∧ children = items.map syntaxTree ∨
      ∃ tag opener inside closer, P (.pair tag opener inside closer) ∧ kind = tag.syntaxKind ∧
        children = delimited tag opener inside closer := by
  cases hwithin with
  | self => exact .inl ⟨rfl, rfl⟩
  | child hchild hwithin =>
    obtain ⟨item, hitem, rfl⟩ := List.mem_map.1 hchild
    exact .inr (exists_pair P hP (h item hitem) hwithin)

/-! ### Every delimiter between two that belong together is matched -/

/-- Whether the item stands in a link or image at some depth and nothing in it could have closed what it
stands in. -/
def Sealed (item : Item) : Prop := ∃ outer, item.Settled outer ∧ ∃ tag ∈ outer, tag.closer = .address

theorem Settled.of_mem (h : (Item.pair tag opener inside closer).Settled outer) :
    ∀ item ∈ inside, item.Settled (tag :: outer) := by
  cases h with
  | pair _ _ hstray hinside => exact hinside

/-- A node other than the root is the tree of a pair in which nothing could have closed what is around
it. -/
theorem exists_settled {pieces : List (TokenKind × List Char)}
    (hwithin : (SyntaxTree.node kind children).Within (.node .root ((pairUp pieces).map syntaxTree)))
    (hkind : kind ≠ .root) : ∃ tag opener inside closer outer,
      (Item.pair tag opener inside closer).Settled outer ∧ kind = tag.syntaxKind ∧
        children = delimited tag opener inside closer := by
  have hP (tag : Tag) (opener : List Char) (inside : List Item) (closer : List Char)
      (h : ∃ outer, (Item.pair tag opener inside closer).Settled outer) :
      ∀ item ∈ inside, ∃ outer, item.Settled outer := by
    obtain ⟨outer, hsettled⟩ := h
    exact fun item hitem => ⟨_, hsettled.of_mem item hitem⟩
  rcases exists_pair_of_root (fun item => ∃ outer, item.Settled outer) hP
      (fun item hitem => ⟨[], settled_pairUp pieces item hitem⟩) hwithin with
    ⟨hroot, -⟩ | ⟨tag, opener, inside, closer, ⟨outer, hsettled⟩, hpair⟩
  · exact absurd hroot hkind
  · exact ⟨tag, opener, inside, closer, outer, hsettled, hpair⟩

/-- Inside a style no leaf is a delimiter of that style. -/
theorem leaf_ne {style : Style} (h : ∀ item ∈ inside, item.Settled outer)
    (hstyle : .styled style ∈ outer) :
    ∀ part ∈ inside.map syntaxTree, ∀ leaf ∈ part.leaves, leaf.1 ≠ .token style.tokenKind := by
  intro part hpart leaf hleaf
  obtain ⟨item, hitem, rfl⟩ := List.mem_map.1 hpart
  rw [leaves_syntaxTree, leavesOf] at hleaf
  obtain ⟨piece, hpiece, rfl⟩ := List.mem_map.1 hleaf
  intro hkind
  exact (h item hitem).piece_ne hstyle piece hpiece (SyntaxKind.token.inj hkind)

/-- An address in a pair within a link or image is the closer of that pair. -/
theorem address_last (h : ∀ item ∈ inside, item.Sealed) {before after : List SyntaxTree}
    (hsplit : delimited tag opener inside closer =
      before ++ .token (.token .address) raw :: after) :
    (tag.syntaxKind = .link ∨ tag.syntaxKind = .image) ∧ after = [] := by
  rcases List.eq_nil_or_concat after with rfl | ⟨after, last, rfl⟩
  · have hcloser := (List.append_inj' hsplit rfl).2
    simp only [List.cons.injEq, SyntaxTree.token.injEq, SyntaxKind.token.injEq] at hcloser
    refine ⟨?_, rfl⟩
    cases tag with
    | styled style => cases style <;> cases hcloser.1.1
    | link => exact .inl rfl
    | image => exact .inr rfl
  · rw [List.concat_eq_append, ← List.cons_append, ← List.append_assoc] at hsplit
    have hmem : SyntaxTree.token (.token .address) raw ∈
        SyntaxTree.token (.token tag.opener) opener :: inside.map syntaxTree := by
      rw [(List.append_inj' hsplit rfl).1]
      exact List.mem_append_right _ List.mem_cons_self
    rcases List.mem_cons.1 hmem with hopener | hmem
    · exact absurd (SyntaxKind.token.inj (SyntaxTree.token.inj hopener).1).symm tag.opener_ne_address
    · obtain ⟨item, hitem, htree⟩ := List.mem_map.1 hmem
      obtain ⟨outer, hsettled, tag, htag, haddress⟩ := h item hitem
      cases item with
      | token kind raw =>
        obtain ⟨hkind, -⟩ := SyntaxTree.token.inj htree
        exact absurd ((SyntaxKind.token.inj hkind).trans haddress.symm) (hsettled.kind_ne tag htag)
      | pair => cases htree

theorem Sealed.of_mem (h : (Item.pair tag opener inside closer).Sealed) :
    ∀ item ∈ inside, item.Sealed := by
  obtain ⟨outer, hsettled, other, hother, haddress⟩ := h
  exact fun item hitem =>
    ⟨_, hsettled.of_mem item hitem, other, List.mem_cons_of_mem tag hother, haddress⟩

/-- Every address in a link or image closes a link or image. -/
theorem address_last_of_within (h : (Item.pair tag opener inside closer).Settled outer)
    (hlink : tag.closer = .address) {before after : List SyntaxTree}
    (hwithin : (SyntaxTree.node kind (before ++ .token (.token .address) raw :: after)).Within
      (.node tag.syntaxKind (delimited tag opener inside closer))) :
    (kind = .link ∨ kind = .image) ∧ after = [] := by
  have hinside : ∀ item ∈ inside, item.Sealed :=
    fun item hitem => ⟨_, h.of_mem item hitem, tag, List.mem_cons_self, hlink⟩
  rcases hwithin.eq_or_exists with hself | ⟨tree, hchild, hwithin⟩
  · obtain ⟨rfl, hsplit⟩ := SyntaxTree.node.inj hself
    exact address_last hinside hsplit.symm
  · rcases mem_delimited hchild with ⟨_, _, rfl⟩ | ⟨item, hitem, rfl⟩
    · cases hwithin
    · obtain ⟨inner, _, _, _, hsealed, rfl, hsplit⟩ :=
        exists_pair Sealed (fun _ _ _ _ => Sealed.of_mem) (hinside item hitem) hwithin
      exact address_last hsealed.of_mem hsplit.symm

/-! ### Few delimiters are left on one level -/

theorem Sparse.map_syntaxTree (h : Sparse items) (hlink : kind = .link ∨ kind = .image →
    ∀ loose ∈ Item.looseKinds items, loose ≠ .linkStart ∧ loose ≠ .imageStart) :
    SyntaxTree.Sparse kind (items.map syntaxTree) := by
  constructor
  · intro style
    rw [looseKinds_map_syntaxTree, List.count_map_of_injective _ _ fun _ _ => SyntaxKind.token.inj]
    exact h.once style
  · rw [looseKinds_map_syntaxTree, List.pairwise_map]
    refine h.apart.imp fun hapart => ?_
    simpa using hapart
  · intro hkind
    rw [looseKinds_map_syntaxTree]
    refine List.forall_mem_map.2 fun loose hloose => ?_
    simpa using hlink hkind loose hloose

theorem Orderly.of_mem (h : (Item.pair tag opener inside closer).Orderly) :
    ∀ item ∈ inside, item.Orderly := by
  cases h with
  | pair _ _ hsparse hlink hinside => exact hinside

theorem Orderly.sparse (h : (Item.pair tag opener inside closer).Orderly) :
    SyntaxTree.Sparse tag.syntaxKind
      (SyntaxTree.held tag.syntaxKind (delimited tag opener inside closer)) := by
  cases h with
  | pair _ _ hsparse hlink hinside =>
    have hheld : SyntaxTree.held tag.syntaxKind (delimited tag opener inside closer) =
        inside.map syntaxTree := by
      cases tag <;> simp [SyntaxTree.held, delimited, Tag.syntaxKind]
    rw [hheld]
    refine hsparse.map_syntaxTree fun hkind => hlink ?_
    cases tag <;> simp_all [Tag.syntaxKind, Tag.isSymmetric]

end Item

open Assembly

/-- Delimiters are matched as soon as they can be. Inside a style there is no delimiter of that style, and
every address in a link or image closes a link or image. Where every opener has room, few delimiters
stand by themselves in one node. -/
theorem syntaxTree_greedy (tokens : List Token) : ∃ tree,
    SyntaxTree.ofEvents? tokens (assemble tokens).trace.events.toList = some tree ∧
    (∀ style children, (SyntaxTree.node (.styled style) children).Within tree →
      ∃ opener inside closer, children = .token (.token style.tokenKind) opener :: inside ++
          [.token (.token style.tokenKind) closer] ∧
        ∀ part ∈ inside, ∀ leaf ∈ part.leaves, leaf.1 ≠ .token style.tokenKind) ∧
    (∀ outer around kind before raw after, outer = .link ∨ outer = .image →
      (SyntaxTree.node outer around).Within tree →
      (SyntaxTree.node kind (before ++ .token (.token .address) raw :: after)).Within
        (.node outer around) → (kind = .link ∨ kind = .image) ∧ after = []) ∧
    (tokens.countP (·.kind.isOpener) ≤ maxDepth →
      ∀ kind children, (SyntaxTree.node kind children).Within tree →
        SyntaxTree.Sparse kind (SyntaxTree.held kind children)) := by
  refine ⟨_, ofEvents?_assemble tokens, ?_, ?_, ?_⟩
  · intro style children hwithin
    obtain ⟨tag, opener, inside, closer, outer, hsettled, hkind, rfl⟩ :=
      Item.exists_settled hwithin (by simp)
    obtain rfl : tag = .styled style := by cases tag <;> simp_all [Tag.syntaxKind]
    exact ⟨opener, inside.map Item.syntaxTree, closer, rfl,
      Item.leaf_ne hsettled.of_mem List.mem_cons_self⟩
  · intro outer around kind before raw after houter hwithin hinner
    obtain ⟨tag, opener, inside, closer, around, hsettled, rfl, rfl⟩ :=
      Item.exists_settled hwithin (by rcases houter with rfl | rfl <;> simp)
    have haddress : tag.closer = .address := by cases tag <;> simp_all [Tag.syntaxKind, Tag.closer]
    exact Item.address_last_of_within hsettled haddress hinner
  · intro hroom kind children hwithin
    have hroom' : (tokens.map fun token => (token.kind, token.raw)).countP (·.1.isOpener) ≤ maxDepth := by
      rwa [List.countP_map]
    obtain ⟨hsparse, horderly⟩ := sparse_pairUp hroom'
    rcases Item.exists_pair_of_root Item.Orderly (fun _ _ _ _ => Item.Orderly.of_mem) horderly hwithin with
      ⟨rfl, rfl⟩ | ⟨tag, opener, inside, closer, hpair, rfl, rfl⟩
    · exact hsparse.map_syntaxTree (by simp)
    · exact hpair.sparse

/-- A style that closes around a link and another style, both of them open, and an image in a link. -/
def crossingTags : List Token :=
  [⟨.italic, 0, ['*']⟩, ⟨.linkStart, 1, ['[']⟩, ⟨.bold, 2, ['*', '*']⟩, ⟨.italic, 4, ['*']⟩,
    ⟨.linkStart, 5, ['[']⟩, ⟨.imageStart, 6, ['!', '[']⟩, ⟨.address, 8, [']', '(', ')']⟩,
    ⟨.address, 11, [']', '(', ')']⟩]

def aroundOpenTags : List SyntaxTree :=
  [.token (.token .italic) ['*'], .token (.token .linkStart) ['['], .token (.token .bold) ['*', '*'],
    .token (.token .italic) ['*']]

def aroundImage : List SyntaxTree :=
  [.token (.token .linkStart) ['['],
    .node .image [.token (.token .imageStart) ['!', '['], .token (.token .address) [']', '(', ')']],
    .token (.token .address) [']', '(', ')']]

theorem syntaxTree_greedy_crossingTags : crossingTags.countP (·.kind.isOpener) ≤ maxDepth ∧
    ∃ tree, SyntaxTree.ofEvents? crossingTags (assemble crossingTags).trace.events.toList = some tree ∧
      (∃ opener inside closer, aroundOpenTags = .token (.token .italic) opener :: inside ++
          [.token (.token .italic) closer] ∧
        ∀ part ∈ inside, ∀ leaf ∈ part.leaves, leaf.1 ≠ .token .italic) ∧
      (∀ kind before raw after,
        (SyntaxTree.node kind (before ++ .token (.token .address) raw :: after)).Within
          (.node .link aroundImage) → (kind = .link ∨ kind = .image) ∧ after = []) ∧
      SyntaxTree.Sparse (.styled .italic) (SyntaxTree.held (.styled .italic) aroundOpenTags) := by
  have hroom : crossingTags.countP (·.kind.isOpener) ≤ maxDepth := by decide
  obtain ⟨tree, htree, hstyle, hlink, hsparse⟩ := syntaxTree_greedy crossingTags
  have hroot : .node .root [.node (.styled .italic) aroundOpenTags, .node .link aroundImage] = tree :=
    Option.some.inj ((ofEvents?_assemble crossingTags).symm.trans htree)
  have hitalic : (SyntaxTree.node (.styled .italic) aroundOpenTags).Within tree :=
    hroot ▸ .child List.mem_cons_self .self
  have himage : (SyntaxTree.node .link aroundImage).Within tree :=
    hroot ▸ .child (List.mem_cons_of_mem _ List.mem_cons_self) .self
  exact ⟨hroom, tree, htree, hstyle .italic _ hitalic,
    fun kind before raw after => hlink .link _ kind before raw after (.inl rfl) himage,
    hsparse hroom _ _ hitalic⟩

end InlineMarkup
