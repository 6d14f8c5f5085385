import InlineMarkup.Proofs.Greedy
import InlineMarkup.Proofs.Mirror
import InlineMarkup.Proofs.Owners

/-! Open tags: after every token the tags that wait to be closed, the document and the events fit
together, so that closing and demoting a tag find what they look for. -/

namespace InlineMarkup

/-- Whether taking the container of an open tag apart finds it under the parent that the tag records,
as the last child. -/
def Document.Finds (doc : Document) (opened : OpenTag) : Prop :=
  ∃ before : Array NodeId,
    ((doc.setChildren opened.node #[]).store (.text opened.delimiter)).1.children opened.parent =
      before.push opened.node ∧
    (((doc.setChildren opened.node #[]).store (.text opened.delimiter)).1.children
      opened.parent).idxOf? opened.node = some before.size

/-- Whether the open tags fit together, and with the document and the events. -/
structure Assembly.Consistent (assembly : Assembly) : Prop where
  depth : assembly.openTags.length ≤ maxDepth
  /-- No symmetric tag is open twice. -/
  distinct : assembly.openTags.Pairwise fun inner outer => inner.tag.isSymmetric → inner.tag ≠ outer.tag
  /-- The parent of a tag is the node of the next one outside, or the root. -/
  parent : ∀ inner opened outer, assembly.openTags = inner ++ opened :: outer →
    opened.parent = (outer.head?.map (·.node)).getD Document.rootId
  /-- Nothing comes after the node of a tag. The children of an image are those of its link. -/
  last : ∀ opened ∈ assembly.openTags,
    (assembly.document.children opened.parent).back? = some opened.node
  /-- The event where a tag may start is still kept free. -/
  free : ∀ opened ∈ assembly.openTags,
    assembly.trace.events[opened.marker.index]? = some .placeholder
  /-- A tag starts after those around it. -/
  markers : assembly.openTags.Pairwise fun inner outer => outer.marker.index < inner.marker.index
  /-- No node is a child of two containers, twice of one, or both a child and wrapped by an image. -/
  owners : assembly.document.namedNodes.Nodup

variable {doc : Document} {events : List Event} {sites : List Site} {opened : OpenTag}
  {openTags : List OpenTag} {waiting : List Waiting} {level : List Item}

/-! ### Parents and last children -/

theorem Matches.parent_eq (h : Matches sites openTags waiting level) :
    ∀ inner opened outer, openTags = inner ++ opened :: outer →
      opened.parent = (outer.head?.map (·.node)).getD Document.rootId := by
  induction h with
  | root =>
    intro inner opened outer hsplit
    simp at hsplit
  | inside site opened w level htrees hshell hnode hparent htag hraw houter ih =>
    intro inner other outer hsplit
    cases inner with
    | nil =>
      obtain ⟨rfl, rfl⟩ := List.cons_eq_cons.1 hsplit
      obtain ⟨around, sites, rfl, hid, -, -⟩ := houter.exists_site
      rw [← hid]
      exact (Option.some.inj hparent).symm
    | cons first inner => exact ih inner other outer (List.cons_eq_cons.1 hsplit).2

theorem Matches.back?_children (h : Matches sites openTags waiting level) {inner : List NodeId}
    (hnest : doc.Nest inner sites) :
    ∀ opened ∈ openTags, (doc.children opened.parent).back? = some opened.node := by
  induction h generalizing inner with
  | root => simp
  | inside site opened w level htrees hshell hnode hparent htag hraw houter ih =>
    refine List.forall_mem_cons.2 ⟨?_, ih hnest.2⟩
    obtain ⟨around, sites, rfl, -, -, -⟩ := houter.exists_site
    have hchildren := hnest.2.1.1.children_eq
    rw [← Option.some.inj hparent, hchildren, hnode]
    simp

theorem Says.exists_waiting (h : Says doc (opened :: openTags) waiting level) :
    ∃ w rest, waiting = w :: rest := by
  obtain ⟨sites, -, hmatches⟩ := h
  cases hmatches with
  | inside => exact ⟨_, _, rfl⟩

theorem Says.finds (h : Says doc (opened :: openTags) waiting level) : doc.Finds opened := by
  obtain ⟨sites, hholds, hmatches⟩ := h
  cases hmatches with
  | inside site opened w level htrees hshell hnode hparent htag hraw houter =>
    obtain ⟨around, sites, rfl, -, -, -⟩ := houter.exists_site
    obtain ⟨hopen, -⟩ := hholds.detach opened.delimiter
    have hindex := hholds.idxOf?_children hopen
    rw [Document.Finds, hnode, ← Option.some.inj hparent]
    refine ⟨(around.children.map Placed.id).toArray, ?_, by simpa using hindex⟩
    rw [hopen.children_eq]
    simp

/-! ### Marks -/

theorem Records.pairwise_marker (h : Records events openTags waiting level) :
    openTags.Pairwise fun inner outer => outer.marker.index < inner.marker.index := by
  induction h with
  | root => exact .nil
  | inside outer events opened w level hmarker htag hbuilds houter ih =>
    refine List.pairwise_cons.2 ⟨fun other hother => ?_, ih⟩
    rw [hmarker]
    exact (List.getElem?_eq_some_iff.1 (houter.getElem?_marker other hother)).1

/-! ### Tags that are open -/

/-- No symmetric tag waits inside itself, as its delimiter would have closed it. -/
theorem Waiting.Settled.pairwise_tag (h : Waiting.Settled waiting level) :
    waiting.Pairwise fun inner outer => inner.tag.isSymmetric → inner.tag ≠ outer.tag := by
  induction waiting generalizing level with
  | nil => exact .nil
  | cons w waiting ih =>
    obtain ⟨-, hfresh, hbefore⟩ := h
    refine List.pairwise_cons.2 ⟨fun v hv hsymmetric heq => ?_, ih hbefore⟩
    refine hfresh v hv ?_
    rw [← heq]
    cases htag : w.tag with
    | styled style => rfl
    | link | image => simp [htag, Tag.isSymmetric] at hsymmetric

namespace Assembly

/-- Assembly after the first `n` tokens. -/
def after (tokens : List Token) (n : Nat) : Assembly :=
  (tokens.take n).foldl step { trace := Trace.push {} (.start .root) }

variable {assembly : Assembly} {tokens : List Token} {pairing : Pairing}

/-- When all tokens are taken in, the open tags are demoted and the document is made compact. -/
theorem assemble_eq_after (tokens : List Token) :
    assemble tokens =
      { (after tokens tokens.length).demoteAll with
        document := (after tokens tokens.length).demoteAll.document.compact
        trace := (after tokens tokens.length).demoteAll.trace.push .finish } := by
  rw [after, List.take_length]
  rfl

namespace Reached

theorem length_openTags_le (h : Reached tokens assembly pairing) :
    assembly.openTags.length ≤ maxDepth := by
  induction h with
  | start => exact Nat.zero_le _
  | leaf h token recoveries ih => rwa [openTags_takeLeaf]
  | opened h token tag hkind hroom ih =>
    rw [openTag_of_lt tag token hroom]
    exact hroom
  | demoted h hopen ih =>
    rw [hopen, List.length_cons] at ih
    exact Nat.le_of_succ_le ih
  | finished h hopen token hkind ih =>
    rw [hopen, List.length_cons] at ih
    rw [openTags_finish]
    exact Nat.le_of_succ_le ih

theorem distinct_openTags (h : Reached tokens assembly pairing) (hsettled : pairing.Settled) :
    assembly.openTags.Pairwise fun inner outer => inner.tag.isSymmetric → inner.tag ≠ outer.tag := by
  have htags : (pairing.waiting.map (·.tag)).Pairwise fun inner outer : Tag =>
      inner.isSymmetric → inner ≠ outer :=
    List.pairwise_map.2 (Waiting.Settled.pairwise_tag hsettled)
  rw [← h.map_tag_eq] at htags
  exact List.pairwise_map.1 htags

/-- Text that is empty leaves the document as it is. -/
theorem exists_says_addText (h : Says assembly.document assembly.openTags waiting level) (token : Token)
    (content : List Char) :
    ∃ level, Says (assembly.addText token content).document assembly.openTags waiting level := by
  cases content with
  | nil => exact ⟨level, h⟩
  | cons c content =>
    have hitem : (Item.token .text (c :: content)).tree = .text (c :: content) := rfl
    exact ⟨_, h.pushText (List.cons_ne_nil c content) hitem⟩

theorem exists_says_takeLeaf (assembly : Assembly) (token : Token)
    (h : Says assembly.document assembly.openTags waiting level) :
    ∃ level, Says (assembly.takeLeaf token).document assembly.openTags waiting level := by
  unfold takeLeaf
  split
  · exact exists_says_addText h token _
  · rename_i hkind
    exact ⟨_, says_addCode h (.inl hkind)⟩
  · rename_i hkind
    exact ⟨_, says_addCode h (.inr hkind)⟩
  · rename_i hkind
    exact ⟨_, says_addBareUrl h hkind⟩
  all_goals exact exists_says_addText h token _

/-- At every moment, and for all tokens, the document has a container for each open tag. -/
theorem exists_says (h : Reached tokens assembly pairing) :
    ∃ waiting level, Says assembly.document assembly.openTags waiting level := by
  induction h with
  | start => exact ⟨[], [], _, Document.holds_empty, .root [] [] rfl⟩
  | @leaf _ assembly _ h token recoveries ih =>
    obtain ⟨waiting, level, hsays⟩ := ih
    rw [openTags_takeLeaf]
    exact ⟨waiting, exists_says_takeLeaf { assembly with recoveries } token hsays⟩
  | opened h token tag hkind hroom ih =>
    obtain ⟨waiting, level, hsays⟩ := ih
    rw [openTag_of_lt tag token hroom]
    exact ⟨_, _, hsays.openTag tag token.raw _⟩
  | demoted h hopen ih =>
    obtain ⟨waiting, level, hsays⟩ := ih
    rw [hopen] at hsays
    obtain ⟨w, waiting, rfl⟩ := hsays.exists_waiting
    exact ⟨_, _, hsays.demote (tree_opener ..)⟩
  | finished h hopen token hkind ih =>
    obtain ⟨waiting, level, hsays⟩ := ih
    rw [hopen] at hsays
    obtain ⟨w, waiting, rfl⟩ := hsays.exists_waiting
    rw [openTags_finish, document_finish]
    exact ⟨_, _, hsays.finish token.raw⟩

theorem consistent (h : Reached tokens assembly pairing) (hsettled : pairing.Settled) :
    assembly.Consistent := by
  obtain ⟨waiting, level, sites, hholds, hmatches⟩ := h.exists_says
  refine ⟨h.length_openTags_le, h.distinct_openTags hsettled, hmatches.parent_eq,
    hmatches.back?_children hholds.nest, fun opened hopened => ?_, h.records.pairwise_marker,
    h.nodup_namedNodes⟩
  rw [← Array.getElem?_toList]
  exact h.records.getElem?_marker opened hopened

/-- A state in which the innermost tags are demoted is reached as well. -/
theorem exists_demoted (h : Reached tokens assembly pairing) {inner outer : List OpenTag}
    (hopen : assembly.openTags = inner ++ outer) :
    ∃ pairing, Reached tokens (inner.foldl demote { assembly with openTags := outer }) pairing := by
  have hlength : inner.length ≤ pairing.waiting.length := by
    rw [← h.length_eq, hopen, List.length_append]
    exact Nat.le_add_right ..
  have hsplit : Reached tokens assembly
      ⟨pairing.waiting.take inner.length ++ pairing.waiting.drop inner.length, pairing.level⟩ := by
    rw [List.take_append_drop]
    exact h
  exact ⟨_, hsplit.demote_above hopen (List.length_take_of_le hlength).symm⟩

/-- A tag is found when it is demoted, after the tags inside it. -/
theorem finds (h : Reached tokens assembly pairing) {inner outer : List OpenTag}
    (hopen : assembly.openTags = inner ++ opened :: outer) (rest : List OpenTag) :
    (inner.foldl demote { assembly with openTags := rest }).document.Finds opened := by
  obtain ⟨pairing, hinner⟩ := h.exists_demoted hopen
  obtain ⟨waiting, level, hsays⟩ := hinner.exists_says
  rw [openTags_foldl_demote] at hsays
  rw [foldl_demote_openTags] at hsays ⊢
  exact hsays.finds

end Reached

/-- After every token the open tags fit together with the document and the events. A tag that is closed
is open, after the tags inside it are demoted, and every demotion finds its container. -/
theorem consistent_after (tokens : List Token) (n : Nat) :
    (after tokens n).Consistent ∧
      (∀ p token, (after tokens n).isOpen p → ∃ inner opened outer,
        (after tokens n).openTags = inner ++ opened :: outer ∧ (∀ other ∈ inner, ¬p other.tag) ∧
        p opened.tag ∧ (after tokens n).closeNearest p token =
          (inner.foldl demote { after tokens n with openTags := outer }).finish opened token) ∧
      ∀ inner opened outer, (after tokens n).openTags = inner ++ opened :: outer → ∀ rest,
        (inner.foldl demote { after tokens n with openTags := rest }).document.Finds opened := by
  have hreached := Reached.start.run (tokens.take n)
  refine ⟨hreached.consistent settled_start.run, fun p token hopen => ?_,
    fun inner opened outer hopen rest => hreached.finds hopen rest⟩
  obtain ⟨inner, opened, outer, hsplit, hp, hinner, htake, hdrop⟩ :=
    Pairing.exists_nearest (fun opened : OpenTag => p opened.tag) hopen
  refine ⟨inner, opened, outer, hsplit, by simpa using hinner, hp, ?_⟩
  simp only [closeNearest, htake, hdrop]

/-- The address after bold that is never closed closes the link, which bold still stands in. -/
theorem consistent_after_unclosed_bold :
    (after unclosedBoldInLink 3).isOpen (!·.isSymmetric) ∧
      (∃ inner opened outer, (after unclosedBoldInLink 3).openTags = inner ++ opened :: outer ∧
        (∀ other ∈ inner, ¬(!other.tag.isSymmetric) = true) ∧ opened.tag.isSymmetric = false) ∧
      ∃ bold link, (after unclosedBoldInLink 3).openTags = [bold, link] ∧
        ((after unclosedBoldInLink 3).demote bold).document.Finds link := by
  have hopen : (after unclosedBoldInLink 3).isOpen (!·.isSymmetric) := by decide
  obtain ⟨-, hclose, hfinds⟩ := consistent_after unclosedBoldInLink 3
  refine ⟨hopen, ?_, _, _, rfl, hfinds [_] _ [] rfl _⟩
  obtain ⟨inner, opened, outer, hsplit, hinner, hlink, -⟩ :=
    hclose (!·.isSymmetric) ⟨.address, 5, [']', '(', 'u', ')']⟩ hopen
  exact ⟨inner, opened, outer, hsplit, hinner, by simpa using hlink⟩

end Assembly

end InlineMarkup
