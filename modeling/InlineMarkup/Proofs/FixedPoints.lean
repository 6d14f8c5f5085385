import InlineMarkup.Proofs.Display
import InlineMarkup.Proofs.Faithful
import InlineMarkup.Proofs.RoundTrip

/-! Fixed points: canonical markdown of a text is canonical markdown of itself, but for an underscore
that got into a word and a block that ends in backticks. -/

namespace InlineMarkup

open Backtick Reading

variable {prev next : Option Char} {mark : Mark} {ms : List Mark} {s : List Char}
  {ps qs : List (TokenKind × List Char)}

/-! ### Steady marks that are stable -/

namespace Mark

/-- Whether a mark does not run into its own end. -/
def Closes : Mark → Prop
  | code _ content => content.getLast? ≠ some '`'
  | delimiter _ | linkStart | imageStart | address _ | text _ => True

theorem Steady.stable_iff (h : mark.Steady True prev next) : mark.Stable prev next ↔
    mark.Closes ∧ (mark = .delimiter .underline →
      prev ≠ some '_' ∧ ¬(prev.any Unicode.isAlphanumeric ∧ next.any Unicode.isAlphanumeric)) := by
  cases mark with
  | delimiter style =>
    cases style with
    | underline =>
      have hnext : next ≠ some '_' := by
        rcases h with h | ⟨-, -, h⟩
        · simp only [Stable, underlineAllowed, Bool.and_eq_true, bne_iff_ne] at h
          exact h.1.2
        · exact h
      simp only [Stable, Closes, underlineAllowed, Bool.and_eq_true, bne_iff_ne, ne_eq, hnext,
        Bool.not_eq_true', ← Bool.not_eq_true, not_false_eq_true, and_true, true_and, forall_const]
    | bold | strikethrough => simp [Stable, Closes]
    | italic => simpa [Closes] using h.elim id And.right
  | code fence content =>
    constructor
    · intro hstable
      exact ⟨hstable.1.last, by simp⟩
    · rintro ⟨hcloses, -⟩
      rcases h with h | ⟨-, h | ⟨-, -, hlast, -⟩⟩
      · exact h
      · exact h
      · exact absurd hlast hcloses
  | linkStart | imageStart | address | text => simpa [Closes] using h.elim id And.right

theorem AllSteady.allStable_iff (h : AllSteady True prev ms none) :
    AllStable prev ms none ↔ (∀ mark ∈ ms, mark.Closes) ∧ UnderscoresApart prev ms := by
  induction ms generalizing prev with
  | nil => simp [AllStable, underscoresApart_nil]
  | cons mark ms ih =>
    obtain ⟨hmark, hms⟩ := h
    rw [AllStable, ih hms, hmark.stable_iff, Option.or_none, List.forall_mem_cons,
      underscoresApart_cons, getLast?_or hmark.written_ne_nil]
    tauto

end Mark

/-! ### What a reader sees at least -/

/-- What a reader sees of tokens whichever of them belong together: a delimiter may show nothing. -/
def kept (pieces : List (TokenKind × List Char)) : List Char :=
  pieces.flatMap fun piece =>
    if piece.1.isDelimiter then [] else (Tree.ofToken piece.1 piece.2).shown

@[simp] theorem kept_nil : kept [] = [] := rfl

@[simp] theorem kept_append : kept (ps ++ qs) = kept ps ++ kept qs := List.flatMap_append

theorem kept_singleton (kind : TokenKind) (raw : List Char) :
    kept [(kind, raw)] = if kind.isDelimiter then [] else (Tree.ofToken kind raw).shown := by
  simp [kept]

theorem kept_plainPieces (plain : List Char) : kept (Scanned.plainPieces plain) = plain.reverse := by
  cases plain <;> simp [kept, Scanned.plainPieces, TokenKind.isDelimiter, Tree.ofToken, Tree.shown]

theorem Spells.kept_eq (h : Spells ps s) : kept ps = s := by
  induction h with
  | nil => rfl
  | @text raw s pieces hraw h ih =>
    rw [← List.singleton_append, kept_append, ih, kept_singleton]
    rfl
  | @escape c s pieces h ih =>
    rw [← List.singleton_append, kept_append, ih]
    rfl

theorem Tag.shown_tree (tag : Tag) (url : List Char) (children : List Tree) :
    (tag.tree url children).shown = Tree.allShown children := by
  cases tag <;> rfl

mutual

theorem kept_pieces_sublist : ∀ item : Item, (kept item.pieces).Sublist item.tree.shown
  | .token kind raw => by
    rw [Item.pieces, kept_singleton, Item.tree]
    split
    · exact List.nil_sublist _
    · exact List.Sublist.refl _
  | .pair tag opener inside closer => by
    have hinside := kept_allPieces_sublist inside
    rw [Item.pieces, ← List.singleton_append, kept_append, kept_append, kept_singleton, kept_singleton,
      if_pos tag.isDelimiter_opener, if_pos tag.isDelimiter_closer, List.nil_append, List.append_nil,
      Item.tree, Tag.shown_tree, Tree.allShown_merge, Item.trees_eq_map]
    exact hinside

theorem kept_allPieces_sublist : ∀ items : List Item,
    (kept (Item.allPieces items)).Sublist (Tree.allShown (items.map Item.tree))
  | [] => List.Sublist.refl _
  | item :: items => by
    rw [Item.allPieces, kept_append, List.map_cons, Tree.allShown]
    exact (kept_pieces_sublist item).append (kept_allPieces_sublist items)

end

/-- Delimiters that belong to no tag are all that a reader sees besides. -/
theorem kept_sublist_displayText (text : List Char) :
    (kept (scan {} text).pieces).Sublist ((parse text).document.displayText Document.rootId) := by
  rw [displayText_parse]
  have hsublist := kept_allPieces_sublist (pairUp (scan {} text).pieces)
  rwa [allPieces_pairUp] at hsublist

/-! ### What a reader sees of marks -/

namespace Mark

/-- What a reader sees of a mark. -/
def shown : Mark → List Char
  | code _ content | text content => content
  | delimiter _ | linkStart | imageStart | address _ => []

/-- A mark that is read as what it is shows what it should. -/
theorem Stable.kept_eq (h : mark.Stable prev next) (hmark : ¬mark.isText) :
    kept [(mark.kind, mark.written)] = mark.shown := by
  cases mark with
  | delimiter style => cases style <;> rfl
  | linkStart | imageStart | address => rfl
  | text => exact absurd rfl hmark
  | code fence content =>
    have hkind : (code fence content).kind = .codeInline ∨ (code fence content).kind = .codeBlock := by
      simp only [kind]
      split <;> simp
    have htree := Tree.ofToken_fenced hkind h.1
    rw [kept_singleton, written, htree, if_neg]
    · rfl
    · rcases hkind with hkind | hkind <;> simp [hkind, TokenKind.isDelimiter]

end Mark

namespace Tree

mutual

theorem flatMap_shown_marks : ∀ tree : Tree, tree.marks.flatMap Mark.shown = tree.shown
  | root children => flatMap_shown_allMarks children
  | styled _ children | link _ children | image _ children => by
    simp [marks, Mark.shown, shown, flatMap_shown_allMarks children]
  | code _ _ | text _ => by simp [marks, Mark.shown, shown]

theorem flatMap_shown_allMarks : ∀ trees : List Tree,
    (allMarks trees).flatMap Mark.shown = allShown trees
  | [] => rfl
  | tree :: trees => by
    rw [allMarks, List.flatMap_append, flatMap_shown_marks tree, flatMap_shown_allMarks trees, allShown]

end

end Tree

/-! ### Scanning steady marks -/

/-- A steady mark that is not stable is an underscore within a word or a block at the end. -/
theorem Mark.Steady.stable_or (h : mark.Steady True prev next) : mark.Stable prev next ∨
    mark = .delimiter .underline ∧ ¬underlineAllowed prev next ∨
    ∃ fence content, mark = .code fence content ∧ blockFence ≤ fence ∧ content.head? ≠ some '`' ∧
      content.getLast? = some '`' ∧ closing? fence content = none ∧ next = none := by
  by_cases hstable : mark.Stable prev next
  · exact .inl hstable
  obtain ⟨-, hloose⟩ := h.resolve_left hstable
  cases mark with
  | delimiter style =>
    cases style with
    | underline => exact .inr (.inl ⟨rfl, hstable⟩)
    | bold | italic | strikethrough => exact absurd hloose hstable
  | code fence content => exact .inr (.inr ⟨fence, content, rfl, hloose.resolve_left hstable⟩)
  | linkStart | imageStart | address | text => exact absurd hloose hstable

namespace Scan

variable {lastParen : Option Nat} {index : Nat} {plain t : List Char} {out : Scanned}

/-- A block without its closing fence is one token. -/
theorem pieces_scanFrom_openCode {fence : Nat} {content : List Char} (hfence : blockFence ≤ fence)
    (hcontent : content ≠ []) (hhead : content.head? ≠ some '`')
    (hfree : closing? fence content = none) :
    (scanFrom {} lastParen prev index plain out (List.replicate fence '`' ++ content)).pieces =
      out.pieces ++ Scanned.plainPieces plain ++
        [(.codeBlock, List.replicate fence '`' ++ content)] := by
  obtain ⟨hkind, hlen⟩ := code_open index hfence hcontent hhead hfree
  obtain ⟨n, rfl⟩ := Nat.exists_eq_succ_of_ne_zero (ne_zero_of_blockFence_le hfence)
  have hconstruct : construct? {} lastParen prev index '`' (List.replicate n '`' ++ content) = some _ :=
    construct?_trigger .backtick (by simp)
  rw [List.replicate_succ, List.cons_append] at hkind hlen ⊢
  rw [scanFrom_construct hconstruct (List.append_nil _).symm hlen (List.cons_ne_nil _ _), scanFrom,
    Scanned.pieces_addPlain, Scanned.pieces_add, Scanned.pieces_addPlain]
  exact (List.append_nil _).trans (congrArg (fun kind => _ ++ [(kind, _)]) hkind)

/-- A block that ends in backticks takes its closing fence in. -/
theorem kept_scanFrom_fenced {fence : Nat} {content : List Char} (hfence : blockFence ≤ fence)
    (hhead : content.head? ≠ some '`') (hlast : content.getLast? = some '`')
    (hfree : closing? fence content = none) :
    kept (scanFrom {} lastParen prev index plain out (Markdown.fenced fence content)).pieces =
      kept out.pieces ++ plain.reverse ++ (content ++ List.replicate fence '`') := by
  have hpos := ne_zero_of_blockFence_le hfence
  have hcontent : content ≠ [] := by
    rintro rfl
    cases hlast
  have hhead' : (content ++ List.replicate fence '`').head? ≠ some '`' := by
    rwa [List.head?_append_of_ne_nil _ hcontent]
  have hfree' := closing?_append_fence hpos hlast hfree
  rw [Markdown.fenced, List.append_assoc, pieces_scanFrom_openCode hfence (by simp [hcontent]) hhead'
    hfree', kept_append, kept_append, kept_plainPieces, kept_singleton, Tree.ofToken,
    parts_unclosed hpos hhead' hfree']
  rfl

/-- A stable mark shows what it should, after what was seen before it. -/
theorem exists_scanFrom_stable (hstable : mark.Stable prev t.head?) (plain : List Char) (out : Scanned)
    (hcovers : Covers lastParen index (mark.written ++ t)) :
    ∃ plain' out', scanFrom {} lastParen prev index plain out (mark.written ++ t) =
        scanFrom {} lastParen mark.written.getLast? (index + byteSize mark.written) plain' out' t ∧
      kept out'.pieces ++ plain'.reverse = kept out.pieces ++ plain.reverse ++ mark.shown := by
  by_cases htext : mark.isText
  · cases mark with
    | text content =>
      obtain ⟨ps, plain', out', hscan, hpieces, -, hspells⟩ :=
        scanFrom_text hstable lastParen prev index plain out t
      refine ⟨plain', out', hscan, ?_⟩
      have hkept := hspells.kept_eq
      rw [kept_append, kept_plainPieces] at hkept
      rw [hpieces, kept_append, List.append_assoc, hkept, Mark.shown, List.append_assoc]
    | _ => cases htext
  · obtain ⟨out', hpieces, -, hscan⟩ := scanFrom_mark {} plain out htext hstable hcovers
    refine ⟨[], out', hscan, ?_⟩
    rw [hpieces, kept_append, kept_append, kept_plainPieces, hstable.kept_eq htext, List.reverse_nil,
      List.append_nil]

/-- Of steady marks nothing is lost that a reader sees, and something comes in unless all are stable. -/
theorem length_kept_scanFrom (hsteady : Mark.AllSteady True prev ms none) (plain : List Char)
    (out : Scanned) (hcovers : Covers lastParen index (Mark.writtenAll ms)) :
    ∃ more, (kept (scanFrom {} lastParen prev index plain out (Mark.writtenAll ms)).pieces).length =
        (kept out.pieces ++ plain.reverse).length + (ms.flatMap Mark.shown).length + more ∧
      (more = 0 → Mark.AllStable prev ms none) := by
  induction ms generalizing prev index plain out with
  | nil =>
    refine ⟨0, ?_, fun _ => trivial⟩
    simp [scanFrom, Scanned.pieces_addPlain, kept_plainPieces]
  | cons mark ms ih =>
    obtain ⟨hmark, hms⟩ := hsteady
    rw [Mark.writtenAll_cons] at hcovers ⊢
    rw [Option.or_none] at hmark
    rw [List.flatMap_cons]
    rcases hmark.stable_or with hstable | ⟨rfl, hword⟩ |
      ⟨fence, content, rfl, hfence, hhead, hlast, hfree, hend⟩
    · obtain ⟨plain', out', hscan, hseen⟩ := exists_scanFrom_stable hstable plain out hcovers
      obtain ⟨more, hlength, hmore⟩ := ih hms plain' out' hcovers.drop
      refine ⟨more, ?_, fun hzero => ⟨(Option.or_none ..).symm ▸ hstable, hmore hzero⟩⟩
      rw [hscan, hlength, hseen]
      simp only [List.length_append]
      omega
    · -- the underscore goes on in the plain text
      have hnone : construct? {} lastParen prev index '_' (Mark.writtenAll ms) = none :=
        construct?_eq_none_iff.2 ⟨fun _ => ⟨rfl, hword⟩, by simp⟩
      have hwritten : (Mark.delimiter .underline).written ++ Mark.writtenAll ms =
          '_' :: Mark.writtenAll ms := rfl
      obtain ⟨more, hlength, -⟩ := ih hms ('_' :: plain) out hcovers.drop
      refine ⟨more + 1, ?_, fun hzero => absurd hzero (Nat.succ_ne_zero more)⟩
      rw [hwritten, scanFrom_plain hnone]
      refine hlength.trans ?_
      simp only [List.length_append, List.length_reverse, List.length_cons, Mark.shown, List.length_nil]
      omega
    · -- the block has nothing after it and takes its own closing fence in
      obtain rfl : ms = [] := by
        cases ms with
        | nil => rfl
        | cons other ms =>
          rw [Mark.writtenAll_cons, List.head?_append_of_ne_nil _ hms.1.written_ne_nil,
            List.head?_eq_none_iff] at hend
          exact absurd hend hms.1.written_ne_nil
      refine ⟨fence, ?_, fun hzero => absurd hzero (ne_zero_of_blockFence_le hfence)⟩
      rw [Mark.writtenAll_nil, List.append_nil, Mark.written, kept_scanFrom_fenced hfence hhead hlast hfree]
      simp only [List.length_append, List.length_replicate, Mark.shown, List.flatMap_nil, List.length_nil]
      omega

end Scan

/-- Whether what is written of a tree is read as it is meant: no code runs into its own closing fence,
and no underscore of a delimiter follows an underscore or stands within a word. -/
structure Tree.Firm (tree : Tree) : Prop where
  closes : ∀ mark ∈ tree.marks, mark.Closes
  underscores : Mark.UnderscoresApart none tree.marks

/-- What is read of a text is written with steady marks, whatever is wrong with it. -/
theorem steady_pairUp (text : List Char) : Mark.AllSteady True none
    (Tree.allMarks (Tree.merge ((pairUp (scan {} text).pieces).map Item.tree))) none := by
  have htracks : Tracks True _ none text none _ none := tracks_pairUp {} text fun _ => trivial
  exact htracks.steady none (.inl rfl)

theorem firm_iff (text : List Char) : ((parse text).document.tree Document.rootId).Firm ↔
    Mark.AllStable none
      (Tree.allMarks (Tree.merge ((pairUp (scan {} text).pieces).map Item.tree))) none := by
  rw [(steady_pairUp text).allStable_iff, document_parse, Document.tree_ofTrees]
  exact ⟨fun h => ⟨h.closes, h.underscores⟩, fun h => ⟨h.1, h.2⟩⟩

/-- Canonical markdown of a text that is read firmly is read to the same document. -/
theorem document_parse_markdown (text : List Char)
    (h : ((parse text).document.tree Document.rootId).Firm) :
    (parse ((parse text).document.markdown Document.rootId)).document = (parse text).document := by
  rw [document_parse text, Document.markdown_ofTrees]
  exact (parse_writtenAll (nest_pairUp text) (Tree.merged_merge _)
    (Tree.allTidy_merge.2 (allTidy_items _)) ((firm_iff text).1 h)).1

/-- A text whose canonical markdown shows the same is read firmly. -/
theorem firm_of_displayText_eq (text : List Char)
    (h : (parse ((parse text).document.markdown Document.rootId)).document.displayText Document.rootId =
      (parse text).document.displayText Document.rootId) :
    ((parse text).document.tree Document.rootId).Firm := by
  rw [firm_iff]
  -- the second reading shows all that its tokens show, and they all that the first one shows, and more
  have hsublist := kept_sublist_displayText ((parse text).document.markdown Document.rootId)
  rw [h, displayText_parse, document_parse text, Document.markdown_ofTrees] at hsublist
  obtain ⟨more, hlength, hmore⟩ :=
    Scan.length_kept_scanFrom (steady_pairUp text) [] {} (covers_lastOffset? _)
  rw [Tree.flatMap_shown_allMarks, Tree.allShown_merge] at hlength
  have hle := hsublist.length_le
  rw [scan, hlength] at hle
  exact hmore (by omega)

/-- Canonical markdown of a text is canonical markdown of itself and shows the same, if and only if the
text is read firmly. -/
theorem markdown_parse_markdown_iff (text : List Char) :
    ((parse ((parse text).document.markdown Document.rootId)).document.markdown Document.rootId =
        (parse text).document.markdown Document.rootId ∧
      (parse ((parse text).document.markdown Document.rootId)).document.displayText Document.rootId =
        (parse text).document.displayText Document.rootId) ↔
      ((parse text).document.tree Document.rootId).Firm := by
  constructor
  · rintro ⟨-, hshown⟩
    exact firm_of_displayText_eq text hshown
  · intro hfirm
    rw [document_parse_markdown text hfirm]
    exact ⟨rfl, rfl⟩

/-- A block without its closing fence that ends in a backtick. -/
def blockOnBacktick : List Char := "```a`".toList

/-- The fence that closes the block makes one run with the backtick before it. -/
theorem markdown_parse_markdown_blockOnBacktick_ne :
    (parse ((parse blockOnBacktick).document.markdown Document.rootId)).document.markdown
        Document.rootId ≠ (parse blockOnBacktick).document.markdown Document.rootId ∧
      (parse ((parse blockOnBacktick).document.markdown Document.rootId)).document.displayText
        Document.rootId ≠ (parse blockOnBacktick).document.displayText Document.rootId := by
  decide +kernel

/-- The backslash that kept the underscore before it out of a word is not written again. -/
example : (parse ((parse "x_\\ab_".toList).document.markdown Document.rootId)).document.displayText
    Document.rootId ≠ (parse "x_\\ab_".toList).document.displayText Document.rootId := by
  decide +kernel

end InlineMarkup
