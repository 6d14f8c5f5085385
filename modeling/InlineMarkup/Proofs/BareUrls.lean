import InlineMarkup.Proofs.Greedy
import InlineMarkup.Proofs.RoundTrip

/-! Bare addresses: what is read of a text with addresses that stand alone is read from its canonical
markdown, in which they are links, as far as these do not stand too deep. -/

namespace InlineMarkup

namespace Tree

variable {tree : Tree} {ts us : List Tree} {outer : List Style} {room : Nat}

mutual

/-- The number of containers around each other in a tree, apart from the root. -/
def depth : Tree → Nat
  | root children => allDepth children
  | styled _ children | link _ children | image _ children => allDepth children + 1
  | code _ _ | text _ => 0

def allDepth : List Tree → Nat
  | [] => 0
  | tree :: trees => max (depth tree) (allDepth trees)

end

theorem allDepth_before (tree : Tree) (ts : List Tree) :
    allDepth (before tree ts) = max tree.depth (allDepth ts) := by
  by_cases htree : tree.isText
  · obtain ⟨s, rfl⟩ := isText_iff.1 htree
    cases ts with
    | nil => rfl
    | cons u ts => cases u <;> simp [before, allDepth, depth]
  · rw [before_of_not_isText htree, allDepth]

theorem allDepth_merge (ts : List Tree) : allDepth (merge ts) = allDepth ts := by
  induction ts with
  | nil => rfl
  | cons tree ts ih => rw [merge, List.foldr_cons, allDepth_before, ← merge, ih, allDepth]

theorem depth_le_allDepth (h : tree ∈ ts) : tree.depth ≤ allDepth ts := by
  induction ts with
  | nil => cases h
  | cons u ts ih =>
    rcases List.mem_cons.1 h with rfl | h
    · exact Nat.le_max_left _ _
    · exact (ih h).trans (Nat.le_max_right _ _)

theorem allNest_iff : AllNest outer room ts ↔ ∀ tree ∈ ts, tree.Nests outer room := by
  induction ts with
  | nil => simp [AllNest]
  | cons tree ts ih => rw [AllNest, ih, List.forall_mem_cons]

mutual

/-- What nests has no more containers around each other than there is room for. -/
theorem Nests.depth_le : ∀ (tree : Tree) {outer : List Style} {room : Nat},
    tree.Nests outer room → tree.depth ≤ room
  | code _ _, _, _, _ | text _, _, _, _ => Nat.zero_le _
  | styled _ children, _, _, ⟨_, hpos, hchildren⟩ | link _ children, _, _, ⟨hpos, hchildren⟩
  | image _ children, _, _, ⟨hpos, hchildren⟩ => by
    have hle := AllNest.allDepth_le children hchildren
    rw [depth]
    omega

theorem AllNest.allDepth_le : ∀ (trees : List Tree) {outer : List Style} {room : Nat},
    AllNest outer room trees → allDepth trees ≤ room
  | [], _, _, _ => Nat.zero_le _
  | tree :: trees, _, _, ⟨htree, htrees⟩ =>
    Nat.max_le.2 ⟨Nests.depth_le tree htree, AllNest.allDepth_le trees htrees⟩

end

end Tree

theorem Tag.depth_tree (tag : Tag) (url : List Char) (children : List Tree) :
    (tag.tree url children).depth = Tree.allDepth children + 1 := by
  cases tag <;> rfl

/-- No style is within itself, so that only the depth may keep an item from its place. -/
theorem Item.Settled.nests {item : Item} {outer : List Tag} {room : Nat} (h : item.Settled outer)
    (hdepth : item.tree.depth ≤ room) : item.tree.Nests (outer.flatMap Tag.styles) room := by
  induction h generalizing room with
  | @token outer kind raw hstray =>
    cases kind with
    | bareUrl => exact ⟨hdepth, trivial, trivial⟩
    | _ => trivial
  | @pair outer tag inside opener closer hstray hinside ih =>
    rw [Item.tree, Tag.depth_tree, Item.trees_eq_map, Tree.allDepth_merge] at hdepth
    rw [Item.tree, Tag.nests_tree, Item.trees_eq_map, Tree.allNest_merge, Tree.allNest_iff]
    refine ⟨Tag.notMem_styles hstray, by omega, List.forall_mem_map.2 fun item hitem => ?_⟩
    have hle := Tree.depth_le_allDepth (List.mem_map_of_mem (f := Item.tree) hitem)
    exact ih item hitem (by omega)

theorem allNest_of_allDepth_le {pieces : List (TokenKind × List Char)}
    (h : Tree.allDepth ((pairUp pieces).map Item.tree) ≤ Assembly.maxDepth) :
    Tree.AllNest [] Assembly.maxDepth ((pairUp pieces).map Item.tree) := by
  refine Tree.allNest_iff.2 (List.forall_mem_map.2 fun item hitem => ?_)
  have hle := Tree.depth_le_allDepth (List.mem_map_of_mem (f := Item.tree) hitem)
  exact (settled_pairUp pieces item hitem).nests (hle.trans h)

theorem depth_parseWith (options : ScanOptions) (text : List Char) :
    ((parseWith options text).document.tree Document.rootId).depth =
      Tree.allDepth ((pairUp (scan options text).pieces).map Item.tree) := by
  rw [document_parseWith, Document.tree_ofTrees, Tree.depth, Tree.allDepth_merge]

/-- Where addresses do not stand alone, no more containers stand around each other than may be open. -/
theorem depth_parse_le (text : List Char) :
    ((parse text).document.tree Document.rootId).depth ≤ Assembly.maxDepth := by
  have hnest := nest_pairUp text
  rw [Tree.allNest_merge] at hnest
  have hdepth := depth_parseWith {} text
  rw [parse, hdepth]
  exact Tree.AllNest.allDepth_le _ hnest

/-- Canonical markdown of a text that is read without loss is read to the same document if and only if no
more containers stand around each other than may be open. -/
theorem parse_markdown_iff (options : ScanOptions) (text : List Char)
    (h : ∀ warning ∈ (parseWith options text).warnings, ¬warning.IsLossy) :
    (parse ((parseWith options text).document.markdown Document.rootId)).document =
        (parseWith options text).document ↔
      ((parseWith options text).document.tree Document.rootId).depth ≤ Assembly.maxDepth := by
  constructor
  · intro hsame
    rw [← hsame]
    exact depth_parse_le _
  · rw [depth_parseWith, document_parseWith, Document.markdown_ofTrees]
    intro hle
    have hstable := ((tracks_of_not_isLossy h).steady none (.inl rfl)).allStable
    exact (parse_writtenAll (Tree.allNest_merge.2 (allNest_of_allDepth_le hle)) (Tree.merged_merge _)
      (Tree.allTidy_merge.2 (allTidy_items _)) hstable).1

/-- An address that stands alone in an italic. -/
def addressInItalic : List Char := "*see http://a.b *".toList

theorem parse_markdown_addressInItalic :
    (∀ warning ∈ (parseWith ⟨true⟩ addressInItalic).warnings, ¬warning.IsLossy) ∧
      (parse ((parseWith ⟨true⟩ addressInItalic).document.markdown Document.rootId)).document =
        (parseWith ⟨true⟩ addressInItalic).document := by
  have hlossless : ∀ warning ∈ (parseWith ⟨true⟩ addressInItalic).warnings, ¬warning.IsLossy := by
    decide +kernel
  have hdepth : ((parseWith ⟨true⟩ addressInItalic).document.tree Document.rootId).depth ≤
      Assembly.maxDepth := by
    decide +kernel
  exact ⟨hlossless, (parse_markdown_iff ⟨true⟩ addressInItalic hlossless).2 hdepth⟩

/-- An address that stands alone in as many links as may be open: its own link is one too many. -/
def addressInLinks : List Char :=
  List.replicate Assembly.maxDepth '[' ++
    ("http://a".toList ++ (List.replicate Assembly.maxDepth "](u)".toList).flatten)

theorem parse_markdown_addressInLinks_ne :
    (parseWith ⟨true⟩ addressInLinks).warnings = #[] ∧
      (parse ((parseWith ⟨true⟩ addressInLinks).document.markdown Document.rootId)).document ≠
        (parseWith ⟨true⟩ addressInLinks).document := by
  refine ⟨by decide +kernel, fun hsame => ?_⟩
  have hle := depth_parse_le ((parseWith ⟨true⟩ addressInLinks).document.markdown Document.rootId)
  rw [hsame, depth_parseWith] at hle
  revert hle
  decide +kernel

end InlineMarkup
