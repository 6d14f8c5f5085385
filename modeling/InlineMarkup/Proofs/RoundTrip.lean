import InlineMarkup.Proofs.Reparse
import InlineMarkup.Proofs.Tracking

/-! The round trip: canonical markdown of a parsed text is parsed to the same document. -/

namespace InlineMarkup

variable {tree : Tree} {us : List Tree}

namespace Tree

theorem allTidy_before : AllTidy (before tree us) ↔ tree.Tidy ∧ AllTidy us := by
  cases tree with
  | text s =>
    cases us with
    | nil => rfl
    | cons u us => cases u <;> simp [before, AllTidy, Tidy]
  | root | styled | code | link | image => rfl

theorem allTidy_merge {ts : List Tree} : AllTidy (merge ts) ↔ AllTidy ts := by
  induction ts with
  | nil => rfl
  | cons tree ts ih => rw [merge, List.foldr_cons, allTidy_before, ← merge, ih, AllTidy]

end Tree

theorem Tag.tidy_tree {tag : Tag} {url : List Char} {children : List Tree}
    (hmerged : Tree.Merged children) (h : Tree.AllTidy children) :
    (tag.tree url children).Tidy := by
  cases tag <;> exact ⟨hmerged, h⟩

mutual

theorem tidy_item : ∀ item : Item, item.tree.Tidy
  | .token kind raw => by
    cases kind with
    | bareUrl => exact ⟨Tree.merged_singleton _, trivial, trivial⟩
    | _ => trivial
  | .pair tag opener inside closer => by
    rw [Item.tree, Item.trees_eq_map]
    exact Tag.tidy_tree (Tree.merged_merge _) (Tree.allTidy_merge.2 (allTidy_items inside))

theorem allTidy_items : ∀ items : List Item, Tree.AllTidy (items.map Item.tree)
  | [] => trivial
  | item :: items => ⟨tidy_item item, allTidy_items items⟩

end

namespace Tree

mutual

/-- The number of links and images that have no address. -/
def emptyLinks : Tree → Nat
  | root children | styled _ children => allEmptyLinks children
  | link url children | image url children => allEmptyLinks children + if url.isEmpty then 1 else 0
  | code _ _ | text _ => 0

def allEmptyLinks : List Tree → Nat
  | [] => 0
  | tree :: trees => emptyLinks tree + allEmptyLinks trees

end

theorem issues_address (url : List Char) :
    (Mark.address url).issues = List.replicate (if url.isEmpty then 1 else 0) .malformedLink := by
  cases url <;> rfl

mutual

theorem issues_marks : ∀ tree : Tree,
    tree.marks.flatMap Mark.issues = List.replicate tree.emptyLinks .malformedLink
  | root children => issues_allMarks children
  | styled style children => by
    simp [marks, Mark.issues, emptyLinks, issues_allMarks children]
  | link url children | image url children => by
    rw [marks, List.flatMap_append, List.flatMap_cons, issues_allMarks children,
      List.flatMap_singleton, issues_address, emptyLinks, ← List.replicate_append_replicate]
    rfl
  | code fence content | text content => rfl

theorem issues_allMarks : ∀ trees : List Tree,
    (allMarks trees).flatMap Mark.issues = List.replicate (allEmptyLinks trees) .malformedLink
  | [] => rfl
  | tree :: trees => by
    rw [allMarks, List.flatMap_append, issues_marks tree, issues_allMarks trees,
      List.replicate_append_replicate, allEmptyLinks]

end

end Tree

/-- The warnings that tell of something which canonical markdown does not keep: a backslash that
escapes nothing, and a code block without a closing fence. -/
def Warning.IsLossy (warning : Warning) : Prop :=
  warning.issue = .redundantEscape ∨ warning.issue = .unclosedTag ∧ warning.relatedKind = .codeBlock

instance (warning : Warning) : Decidable warning.IsLossy := inferInstanceAs (Decidable (_ ∨ _))

variable {options : ScanOptions} {kind : TokenKind} {text : List Char}

theorem exists_warning {issue : Issue} (h : (scan options text).Notes kind issue) :
    ∃ warning ∈ (parseWith options text).warnings,
      warning.relatedKind = kind ∧ warning.issue = issue := by
  obtain ⟨finding, hfinding, hkind, hissue⟩ := h
  exact ⟨finding.warning, Array.mem_map_of_mem hfinding, hkind, hissue⟩

/-- Where no warning tells of a loss, nothing is lost. -/
theorem tracks_of_not_isLossy
    (h : ∀ warning ∈ (parseWith options text).warnings, ¬warning.IsLossy) :
    Tracks False (scan options text).Notes none text none
      (Tree.allMarks (Tree.merge ((pairUp (scan options text).pieces).map Item.tree))) none := by
  refine tracks_pairUp options text ?_
  rintro (hn | hn)
  · obtain ⟨warning, hmem, _, hissue⟩ := exists_warning hn
    exact h warning hmem (.inl hissue)
  · obtain ⟨warning, hmem, hkind, hissue⟩ := exists_warning hn
    exact h warning hmem (.inr ⟨hissue, hkind⟩)

theorem nest_pairUp (text : List Char) : Tree.AllNest [] Assembly.maxDepth
    (Tree.merge ((pairUp (scan {} text).pieces).map Item.tree)) := by
  rw [Tree.allNest_merge]
  apply allNest_pairUp
  intro piece hpiece
  obtain ⟨_, _, hfits⟩ := (cut_scan {} text).2.exists_fits piece hpiece
  exact hfits.kind_ne_bareUrl

/-- Canonical markdown is parsed to the document that it was made of, and each empty address is
complained about once. -/
theorem parse_markdown (text : List Char)
    (h : ∀ warning ∈ (parse text).warnings, ¬warning.IsLossy) :
    (parse ((parse text).document.markdown Document.rootId)).document = (parse text).document ∧
      (parse ((parse text).document.markdown Document.rootId)).warnings.toList.map (·.issue) =
        List.replicate ((parse text).document.tree Document.rootId).emptyLinks .malformedLink ∧
      ((parse text).warnings = #[] →
        (parse ((parse text).document.markdown Document.rootId)).warnings = #[]) := by
  have htracks := tracks_of_not_isLossy h
  obtain ⟨hdocument, hissues⟩ := parse_writtenAll (nest_pairUp text) (Tree.merged_merge _)
    (Tree.allTidy_merge.2 (allTidy_items _)) (htracks.steady none (.inl rfl)).allStable
  rw [document_parse text, Document.markdown_ofTrees, hdocument, hissues, Document.tree_ofTrees,
    Tree.issues_allMarks]
  refine ⟨rfl, rfl, ?_⟩
  intro hnone
  have hurls : ¬(scan {} text).Notes .address .malformedLink := by
    intro hn
    obtain ⟨warning, (hmem : warning ∈ (parse text).warnings), _⟩ := exists_warning hn
    simp [hnone] at hmem
  rw [List.flatMap_eq_nil_iff.2 (htracks.clean hurls), List.map_eq_nil_iff] at hissues
  exact Array.toList_eq_nil_iff.1 hissues

/-- An italic that is not closed, in a link without an address. -/
def unclosedItalicInLink : List Char := ['[', '*', 'a', ']', '(', ')']

theorem parse_markdown_unclosed_italic :
    (∀ warning ∈ (parse unclosedItalicInLink).warnings, ¬warning.IsLossy) ∧
      (parse ((parse unclosedItalicInLink).document.markdown Document.rootId)).document =
        (parse unclosedItalicInLink).document ∧
      (parse ((parse unclosedItalicInLink).document.markdown Document.rootId)).warnings.toList.map
        (·.issue) = [.malformedLink] := by
  have hlossless : ∀ warning ∈ (parse unclosedItalicInLink).warnings, ¬warning.IsLossy := by
    decide +kernel
  have hlinks : ((parse unclosedItalicInLink).document.tree Document.rootId).emptyLinks = 1 := by
    decide +kernel
  obtain ⟨hdocument, hissues, _⟩ := parse_markdown unclosedItalicInLink hlossless
  rw [hlinks] at hissues
  exact ⟨hlossless, hdocument, hissues⟩

end InlineMarkup
