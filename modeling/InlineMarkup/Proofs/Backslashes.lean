import InlineMarkup.Proofs.Delimiters
import InlineMarkup.Proofs.Escaping
import InlineMarkup.Proofs.Mirror

/-! Backslashes: canonical markdown differs from its source in nothing else, but for the closing
fence that a code block may lack. -/

namespace InlineMarkup

/-- The text without its backslashes. -/
def unescaped (text : List Char) : List Char := text.filter (· != '\\')

variable {s t raw : List Char} {tree : Tree} {ts : List Tree} {noted : TokenKind → Issue → Prop}
  {prev next : Option Char} {kind : TokenKind}

@[simp] theorem unescaped_append (s t : List Char) :
    unescaped (s ++ t) = unescaped s ++ unescaped t := List.filter_append ..

@[simp] theorem unescaped_escapeFrom (prev : Option Char) (s : List Char) :
    unescaped (Markdown.escapeFrom prev [] s) = unescaped s := by
  induction s generalizing prev with
  | nil => rfl
  | cons c s ih =>
    have hcons : unescaped (c :: s) = unescaped [c] ++ unescaped s :=
      unescaped_append [c] s
    rw [Markdown.escapeFrom_cons, unescaped_append, ih, hcons]
    split <;> rfl

@[simp] theorem unescaped_escape (s : List Char) : unescaped (Markdown.escape s) = unescaped s :=
  unescaped_escapeFrom none s

/-- The markdown of trees side by side, without its backslashes. -/
def unescapedTrees (trees : List Tree) : List Char :=
  unescaped (Mark.writtenAll (Tree.allMarks trees))

@[simp] theorem unescapedTrees_cons (tree : Tree) (ts : List Tree) :
    unescapedTrees (tree :: ts) = unescaped (Mark.writtenAll tree.marks) ++ unescapedTrees ts := by
  simp [unescapedTrees, Tree.allMarks]

theorem unescapedTrees_before (tree : Tree) (ts : List Tree) :
    unescapedTrees (Tree.before tree ts) = unescapedTrees (tree :: ts) := by
  by_cases ht : tree.isText
  · obtain ⟨s, rfl⟩ := Tree.isText_iff.1 ht
    cases ts with
    | nil => rfl
    | cons u ts => cases u <;> simp [Tree.before, Tree.marks, Mark.written]
  · rw [Tree.before_of_not_isText ht]

/-- Merging texts moves backslashes only. -/
@[simp] theorem unescapedTrees_merge (ts : List Tree) :
    unescapedTrees (Tree.merge ts) = unescapedTrees ts := by
  induction ts with
  | nil => rfl
  | cons tree ts ih =>
    rw [Tree.merge, List.foldr_cons, unescapedTrees_before, unescapedTrees_cons, ← Tree.merge, ih,
      unescapedTrees_cons]

/-- The length of the closing fence that a code block lacks. -/
def missingFence (kind : TokenKind) (raw : List Char) : Nat :=
  let fence := Backtick.runLength raw
  if kind = .codeBlock ∧ Backtick.closing? fence (raw.drop fence) = none then fence else 0

theorem missingFence_fenced {fence : Nat} {content : List Char}
    (h : Backtick.Encloses fence content) :
    missingFence kind (Markdown.fenced fence content) = 0 := by
  have hbody : (content ++ List.replicate fence '`').head? ≠ some '`' := by
    cases hcontent : content with
    | nil => exact absurd hcontent h.content_ne_nil
    | cons c s => simpa [hcontent] using h.head
  have hclosing := Backtick.closing?_fenced (t := []) h.content_ne_nil h.last h.free h.fence_ne_zero
    (by simp)
  rw [List.append_nil] at hclosing
  rw [missingFence, Markdown.fenced, List.append_assoc, Backtick.drop_runLength hbody,
    Backtick.runLength_replicate_append hbody, hclosing, if_neg (by simp)]

theorem missingFence_unclosed {fence : Nat} {content : List Char}
    (hhead : content.head? ≠ some '`') (hfree : Backtick.closing? fence content = none) :
    missingFence .codeBlock (List.replicate fence '`' ++ content) = fence := by
  rw [missingFence, Backtick.drop_runLength hhead, Backtick.runLength_replicate_append hhead,
    if_pos ⟨rfl, hfree⟩]

/-- A piece with the fence that it lacks, without its backslashes. -/
def completed (piece : TokenKind × List Char) : List Char :=
  unescaped piece.2 ++ List.replicate (missingFence piece.1 piece.2) '`'

theorem missingFence_of_ne (h : kind ≠ .codeBlock) : missingFence kind raw = 0 :=
  if_neg fun hkind => h hkind.1

theorem completed_of_ne (h : kind ≠ .codeBlock) : completed (kind, raw) = unescaped raw := by
  simp [completed, missingFence_of_ne h]

theorem unescaped_text (s : List Char) :
    unescaped (Mark.writtenAll (Tree.text s).marks) = unescaped s := by
  simp [Tree.marks, Mark.written]

/-- A token that stands for itself is written as it is, but for its fence. -/
theorem unescaped_ofToken (h : Fits {} noted prev kind raw next) :
    unescaped (Mark.writtenAll (Tree.ofToken kind raw).marks) = completed (kind, raw) := by
  cases h with
  | bold | italic | strikethrough | underline | escape | linkStart | imageStart | address | text =>
    rw [completed_of_ne (by simp)]
    exact unescaped_text _
  | @code kind fence content _ hkind hcode hnext =>
    simp [Tree.ofToken_fenced hkind hcode, Tree.marks, Mark.written, completed,
      missingFence_fenced hcode]
  | @unclosed fence content hfence hcontent hhead hfree hnoted =>
    simp [Tree.ofToken, Backtick.parts_unclosed hfence hhead hfree, Tree.marks, Mark.written,
      completed, missingFence_unclosed hhead hfree, Markdown.fenced, unescaped]
  | bareUrl next hon => exact absurd hon Bool.false_ne_true

theorem completed_opener (tag : Tag) (raw : List Char) :
    completed (tag.opener, raw) = unescaped raw :=
  completed_of_ne (by rcases tag with (_ | _ | _ | _) | _ | _ <;> simp [Tag.opener, Style.tokenKind])

theorem completed_closer (tag : Tag) (raw : List Char) :
    completed (tag.closer, raw) = unescaped raw :=
  completed_of_ne (by rcases tag with (_ | _ | _ | _) | _ | _ <;> simp [Tag.closer, Style.tokenKind])

mutual

/-- What an item says is written with the characters of its tokens. -/
theorem unescaped_item : ∀ (item : Item),
    (∀ piece ∈ item.pieces, ∃ prev next, Fits {} noted prev piece.1 piece.2 next) →
    unescaped (Mark.writtenAll item.tree.marks) = item.pieces.flatMap completed
  | .token kind raw, h => by
    obtain ⟨prev, next, hfits⟩ := h (kind, raw) (by simp [Item.pieces])
    rw [Item.tree, unescaped_ofToken hfits, Item.pieces, List.flatMap_singleton]
  | .pair tag opener inside closer, h => by
    simp only [Item.pieces, List.cons_append, List.forall_mem_cons, List.forall_mem_append] at h
    obtain ⟨⟨prev, next, hopener⟩, hinside, ⟨prev', next', hcloser⟩, _⟩ := h
    have hchildren := unescapedTrees_items inside hinside
    rw [← unescapedTrees_merge, unescapedTrees] at hchildren
    rw [Item.tree, Tag.marks_tree, Item.trees_eq_map, Item.pieces, List.flatMap_append,
      List.flatMap_cons, List.flatMap_singleton, ← hchildren, completed_opener, completed_closer,
      hopener.eq_opening]
    conv_rhs => rw [hcloser.eq_closing]
    simp

theorem unescapedTrees_items : ∀ (items : List Item),
    (∀ piece ∈ Item.allPieces items, ∃ prev next, Fits {} noted prev piece.1 piece.2 next) →
    unescapedTrees (items.map Item.tree) = (Item.allPieces items).flatMap completed
  | [], _ => rfl
  | item :: items, h => by
    simp only [Item.allPieces, List.forall_mem_append] at h
    rw [List.map_cons, unescapedTrees_cons, unescaped_item item h.1, unescapedTrees_items items h.2,
      Item.allPieces, List.flatMap_append]

end

/-- Only the last of the pieces may lack a fence. -/
theorem flatMap_completed {pieces : List (TokenKind × List Char)}
    (h : Cut {} noted prev pieces next) :
    pieces.flatMap completed = unescaped (textOf pieces) ++
      List.replicate ((pieces.getLast?.map fun piece => missingFence piece.1 piece.2).getD 0) '`' := by
  induction pieces generalizing prev with
  | nil => rfl
  | cons piece pieces ih =>
    obtain ⟨hfits, hcut⟩ := h
    cases pieces with
    | nil => simp [completed]
    | cons after pieces =>
      have hnext : ((textOf (after :: pieces)).head?.or next) ≠ none := by
        obtain ⟨c, raw, hraw⟩ := List.exists_cons_of_ne_nil hcut.1.raw_ne_nil
        simp [hraw]
      -- a block without a closing fence goes on to the end of the text
      have hclosed : missingFence piece.1 piece.2 = 0 := by
        generalize ((textOf (after :: pieces)).head?.or next) = following at hfits hnext
        generalize hkind : piece.1 = kind at hfits
        generalize piece.2 = raw at hfits
        cases hfits with
        | code hkind hcode => exact missingFence_fenced hcode
        | unclosed => exact absurd rfl hnext
        | _ => exact missingFence_of_ne (by simp)
      rw [List.flatMap_cons, ih hcut, completed, hclosed, textOf_cons piece, unescaped_append,
        List.getLast?_cons_cons]
      simp

/-- Canonical markdown has the characters of its source in their order, backslashes apart. A code
block that was never closed is given its fence. -/
theorem unescaped_markdown (text : List Char) :
    unescaped ((parse text).document.markdown Document.rootId) = unescaped text ++
      List.replicate (((scan {} text).tokens.toList.getLast?.map fun token =>
        missingFence token.kind token.raw).getD 0) '`' := by
  obtain ⟨htext, hcut⟩ := cut_scan {} text
  have hlast : (scan {} text).pieces.getLast? =
      (scan {} text).tokens.toList.getLast?.map Token.piece := by
    rw [Scanned.pieces, List.getLast?_map]
  rw [document_parse, Document.markdown_ofTrees, ← unescapedTrees, unescapedTrees_merge,
    unescapedTrees_items _ (by rw [allPieces_pairUp]; exact hcut.exists_fits), allPieces_pairUp]
  refine (flatMap_completed hcut).trans ?_
  rw [htext, hlast, Option.map_map]
  rfl

end InlineMarkup
